import BoronDns.RdataNames
import BoronDns.Snapshot

/-!
The records of a snapshot, as a transfer and the zone cache read them. A signature
has the time to live of the RRset it covers, when that RRset is there.
-/

namespace BoronDns

namespace ZoneSnapshot

variable {platform : Platform}

variable (snapshot : ZoneSnapshot platform) (ownerKey : NameKey)

def rrsetsAtOwner : List Rrset :=
  (snapshot.rrsets.entries.filter fun entry => entry.1.owner = ownerKey).map Sigma.snd

def rrsetByNameKey (rrType qclass : UInt16) : Option Rrset :=
  if qclass = classAny then
    (snapshot.rrsetsAtOwner ownerKey).find? fun rrset => rrset.rrType = rrType
  else snapshot.rrsets.lookup ⟨ownerKey, rrType, qclass⟩

def soaRrset (qclass : UInt16) : Option Rrset :=
  let cls := if qclass = classAny then 1 else qclass
  snapshot.rrsets.lookup ⟨snapshot.originKey, RecordType.soa, cls⟩

def recordTtlByOwnerKey (cls rrType : UInt16) (fallbackTtl : UInt32) (rdata : Rdata) : UInt32 :=
  if rrType ≠ RecordType.rrsig then fallbackTtl
  else
    match rdataU16 rdata with
    | none => fallbackTtl
    | some coveredType =>
      (snapshot.rrsetByNameKey ownerKey coveredType cls).elim fallbackTtl Rrset.ttl

/-- The records of an RRset that is stored under `ownerKey`. -/
def recordsOfRrset (rrset : Rrset) : List ResourceRecord :=
  rrset.rdatas.map fun rdata =>
    ⟨rrset.owner, rrset.rrType, rrset.cls,
      snapshot.recordTtlByOwnerKey ownerKey rrset.cls rrset.rrType rrset.ttl rdata, rdata⟩

def transferSoaRecord (qclass : UInt16) : Option ResourceRecord :=
  (snapshot.soaRrset qclass).bind fun rrset => rrset.records.head?

def transferRrsetRecordsByKey (key : RrsetKey) : List ResourceRecord :=
  match snapshot.rrsets.lookup key with
  | none => []
  | some rrset =>
    rrset.rdatas.map fun rdata =>
      ⟨rrset.owner, key.rrType, key.cls,
        snapshot.recordTtlByOwnerKey key.owner key.cls key.rrType rrset.ttl rdata, rdata⟩

def transferRecordsAtNameKey : List ResourceRecord :=
  (snapshot.rrsetsAtOwner ownerKey).flatMap (snapshot.recordsOfRrset ownerKey)

def persistenceRecords : List ResourceRecord :=
  snapshot.rrsets.entries.flatMap fun entry => snapshot.recordsOfRrset entry.1.owner entry.2

end ZoneSnapshot

end BoronDns
