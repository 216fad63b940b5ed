import BoronDns.JournalFormat
import BoronDns.Lib.Outcome
import BoronDns.TransferResponse

/-!
A zone as the cache keeps it: the records of a snapshot, the changes between two
snapshots, and the checks when a checkpoint or a change is read back.
-/

namespace BoronDns

namespace ZoneSnapshot

variable {platform : Platform} (snapshot : ZoneSnapshot platform)

def persistenceRecordCount : ℕ :=
  (snapshot.rrsets.values.map fun rrset => rrset.rdatas.length).sum

theorem length_persistenceRecords :
    snapshot.persistenceRecords.length = snapshot.persistenceRecordCount := by
  rw [persistenceRecords, List.length_flatMap, persistenceRecordCount, AList.values, List.map_map]
  congr 1
  refine List.map_congr_left fun entry _ => ?_
  rw [recordsOfRrset, List.length_map]
  rfl

variable (snapshot previous : ZoneSnapshot platform)

/-- The keys at which a snapshot may differ from another, when that can be told. -/
def changedRrsetKeysFrom : Option (List RrsetKey) :=
  if snapshot.lineage.parentIdentity = some previous.lineage.identity then
    some snapshot.lineage.changedRrsetKeys
  else if snapshot.originKey ≠ previous.originKey ∨
    snapshot.shardCount ≠ previous.shardCount then none
  else
    some ((previous.rrsets.keys.filter fun key => snapshot.rrsets.lookup key ≠
      previous.rrsets.lookup key) ++
      snapshot.rrsets.keys.filter fun key => (previous.rrsets.lookup key).isNone)

/-- The change at a key; the program stops at a key that neither snapshot has. -/
def persistenceChange (key : RrsetKey) : Outcome ZonePersistenceError PersistenceRrsetChange :=
  match snapshot.rrsets.lookup key with
  | some rrset => .ok ⟨rrset.owner, key.rrType, key.cls, some rrset⟩
  | none =>
    match previous.rrsets.lookup key with
    | some old => .ok ⟨old.owner, key.rrType, key.cls, none⟩
    | none => .stopped

def persistenceChangesFrom : Outcome ZonePersistenceError (Option (List PersistenceRrsetChange)) :=
  match snapshot.changedRrsetKeysFrom previous with
  | none => .ok none
  | some keys => do
    let changes ← keys.mapM (snapshot.persistenceChange previous)
    .ok (some changes)

def withPersistenceChanges (identity : ℕ) (serial : UInt32)
    (changes : List PersistenceRrsetChange) : ZoneSnapshot platform :=
  snapshot.withCowRrsetReplacements identity serial (changes.map fun change => (change.key,
    change.replacement))

end ZoneSnapshot

section Checks

variable {platform : Platform} (zoneApex : DomainName) (qclass : UInt16)

def validateRecordScopes (records : List ResourceRecord) : Except AxfrError Unit :=
  records.forM fun record => validateRecordScope record zoneApex qclass

def validatedPersistedZoneSnapshot (identity : ℕ) (zoneApex : DomainName) (qclass : UInt16)
    (serial : Option UInt32) (records : List ResourceRecord) :
    Except AxfrError (ZoneSnapshot platform) := do
  validateRecordScopes zoneApex qclass records
  let records := records.map normalizeRecordOwner
  validateZoneRecordSet zoneApex records
  match records.find? fun record =>
      record.rrType == RecordType.soa && record.owner.canonicalKey == zoneApex.canonicalKey with
  | none => .error .invalidZoneSoa
  | some soa => do
    let number ← soaSerial soa.rdata
    if serial ≠ some number then .error .invalidZoneSoa
    else .ok (.active identity zoneApex.toAsciiLowercased (some number) (rrsetsFromRecords records))

/-- The checks of one change of a journal entry. -/
def validatePersistedChange (change : PersistenceRrsetChange) : Except AxfrError Unit :=
  if change.cls ≠ qclass then .error .classMismatch
  else if change.rrType = 0 ∨ change.rrType = 0xffff then .error .reservedType
  else if isProhibitedTransferContentType change.rrType then .error .prohibitedType
  else if !change.owner.isEqualOrSubdomainOf zoneApex then .error .outOfZoneOwner
  else
    match change.replacement with
    | none => .ok ()
    | some rrset =>
      if rrset.owner.canonicalKey ≠ change.owner.canonicalKey ∨ rrset.rrType ≠ change.rrType ∨
          rrset.cls ≠ change.cls ∨ rrset.rdatas = [] then
        .error .malformedMessage
      else validateRecordScopes zoneApex qclass rrset.records

def persistedAffectedOwners (changes : List PersistenceRrsetChange) : List NameKey :=
  (changes.map fun change => change.owner.canonicalKey).dedup.mergeSort fun left right =>
    decide (left ≤ right)

/-- The serial in the SOA of the apex, when there is one SOA and it is there. -/
def checkSoleSoaSerial (apexKey : NameKey) (qclass : UInt16) (updated : ZoneSnapshot platform)
    (newSerial : UInt32) : Except AxfrError Unit :=
  match updated.transferRrsetRecordsByKey ⟨apexKey, RecordType.soa, qclass⟩ with
  | [soa] =>
    if updated.soaRecordCount ≠ 1 then .error .invalidZoneSoa
    else do
      let number ← soaSerial soa.rdata
      if number ≠ newSerial then .error .invalidZoneSoa else .ok ()
  | _ => .error .invalidZoneSoa

def validatePersistedZoneDelta (previous updated : ZoneSnapshot platform)
    (changes : List PersistenceRrsetChange) : Except AxfrError Unit :=
  match previous.serial, updated.serial with
  | some oldSerial, some newSerial =>
    if newSerial - oldSerial = 0 ∨ 0x80000000 ≤ newSerial - oldSerial then .error .invalidZoneSoa
    else do
      changes.forM (validatePersistedChange zoneApex qclass)
      checkSoleSoaSerial zoneApex.canonicalKey qclass updated newSerial
      if (updated.transferRrsetRecordsByKey ⟨zoneApex.canonicalKey, RecordType.ns,
          qclass⟩).isEmpty then
        .error .missingApexNs
      else
        validateCnameAndDnameCoexistence zoneApex
          ((persistedAffectedOwners changes).flatMap updated.transferRecordsAtNameKey)
  | _, _ => .error .invalidZoneSoa

end Checks

end BoronDns
