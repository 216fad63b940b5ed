import BoronDns.TransferRecord

/-!
When two records of a transfer are the same record. Owners are compared without
regard to case, and so are the names inside the data of the types that have them;
the time to live is part of a record's identity.
-/

namespace BoronDns

variable (record : ResourceRecord) (rdata : Rdata)

/-- The name at `offset` in lower case, and where it ends. -/
def canonicalRdataName (offset : ℕ) : Option (List UInt8 × ℕ) :=
  match DomainName.parse rdata offset with
  | .error _ => none
  | .ok (name, consumed) => some (name.toAsciiLowercased.toWire, offset + consumed)

def canonicalRdataNames (rdata : Rdata) : ℕ → ℕ → Option (List UInt8 × ℕ)
  | 0, offset => some ([], offset)
  | count + 1, offset => do
    let (name, next) ← canonicalRdataName rdata offset
    let (names, last) ← canonicalRdataNames rdata count next
    some (name ++ names, last)

/-- Data of `fixed` octets, then `count` names, then octets of which `fits` knows
where they may start. -/
def canonicalFieldsAndNames (fixed count : ℕ) (fits : ℕ → Bool) : Option (List UInt8) :=
  if rdata.length < fixed then none
  else do
    let (names, last) ← canonicalRdataNames rdata count fixed
    if fits last then some (rdata.take fixed ++ names ++ rdata.drop last) else none

/-- Where the replacement name of a NAPTR record starts. -/
def naptrReplacementOffset : Option ℕ := do
  let offset ← skipCharacterString rdata 4
  let offset ← skipCharacterString rdata offset
  skipCharacterString rdata offset

def canonicalDomainNameRdataIdentity (rrType : UInt16) (rdata : Rdata) : Option (List UInt8) :=
  let atEnd := fun last : ℕ => last == rdata.length
  if rrType ∈ [2, 3, 4, 5, 7, 8, 9, 12, 39] then canonicalFieldsAndNames rdata 0 1 atEnd
  else if rrType ∈ [14, 17, 58] then canonicalFieldsAndNames rdata 0 2 atEnd
  else if rrType = 6 then canonicalFieldsAndNames rdata 0 2 fun last => last + 20 == rdata.length
  else if rrType ∈ [15, 18, 21, 36, 107] then canonicalFieldsAndNames rdata 2 1 atEnd
  else if rrType = 26 then canonicalFieldsAndNames rdata 2 2 atEnd
  else if rrType ∈ [24, 46] then canonicalFieldsAndNames rdata 18 1 atEnd
  else if rrType ∈ [30, 47] then canonicalFieldsAndNames rdata 0 1 fun _ => true
  else if rrType = 33 then canonicalFieldsAndNames rdata 6 1 atEnd
  else if rrType = 35 then do
    let replacement ← naptrReplacementOffset rdata
    canonicalFieldsAndNames rdata replacement 1 atEnd
  else if rrType ∈ [64, 65] then canonicalFieldsAndNames rdata 2 1 fun _ => true
  else none

def canonicalRdataIdentity (rrType : UInt16) (rdata : Rdata) : List UInt8 :=
  (canonicalDomainNameRdataIdentity rrType rdata).getD rdata

@[ext] structure RecordKey where
  owner : DomainName
  rrType : UInt16
  cls : UInt16
  ttl : UInt32
  rdata : List UInt8
  deriving DecidableEq

namespace RecordKey

def fromRecord : RecordKey :=
  ⟨record.owner.toAsciiLowercased, record.rrType, record.cls, record.ttl,
    canonicalRdataIdentity record.rrType record.rdata⟩

/-- The RRset that a record with this identity belongs to. -/
def rrsetKey (key : RecordKey) : RrsetKey := ⟨key.owner.canonicalKey, key.rrType, key.cls⟩

end RecordKey

def resourceRecordsSemanticallyEqual (left right : ResourceRecord) : Bool :=
  RecordKey.fromRecord left == RecordKey.fromRecord right

def rrsetIdentity : RrsetKey :=
  ⟨record.owner.canonicalKey, record.rrType, record.cls⟩

def normalizeRecordOwner : ResourceRecord :=
  { record with owner := record.owner.toAsciiLowercased }

theorem DomainName.toAsciiLowercased_idem (name : DomainName) :
    name.toAsciiLowercased.toAsciiLowercased = name.toAsciiLowercased :=
  DomainName.ext name.toAsciiLowercased_lowerLabels

theorem DomainName.toAsciiLowercased_eq_iff (left right : DomainName) :
    left.toAsciiLowercased = right.toAsciiLowercased ↔ left.canonicalKey = right.canonicalKey := by
  rw [DomainName.canonicalKey_inj]
  exact ⟨fun h => congrArg DomainName.labels h, fun h => DomainName.ext h⟩

theorem DomainName.canonicalKey_toAsciiLowercased (name : DomainName) :
    name.toAsciiLowercased.canonicalKey = name.canonicalKey :=
  (DomainName.canonicalKey_inj _ _).mpr name.toAsciiLowercased_lowerLabels

theorem rrsetKey_fromRecord : (RecordKey.fromRecord record).rrsetKey = rrsetIdentity record := by
  rw [RecordKey.rrsetKey, rrsetIdentity, RecordKey.fromRecord,
    DomainName.canonicalKey_toAsciiLowercased]

theorem fromRecord_normalizeRecordOwner :
    RecordKey.fromRecord (normalizeRecordOwner record) = RecordKey.fromRecord record := by
  rw [RecordKey.fromRecord, normalizeRecordOwner, DomainName.toAsciiLowercased_idem]
  rfl

theorem rrsetIdentity_normalizeRecordOwner :
    rrsetIdentity (normalizeRecordOwner record) = rrsetIdentity record := by
  rw [rrsetIdentity, normalizeRecordOwner, DomainName.canonicalKey_toAsciiLowercased]
  rfl

theorem resourceRecordsSemanticallyEqual_iff (left right : ResourceRecord) :
    resourceRecordsSemanticallyEqual left right = true ↔
      RecordKey.fromRecord left = RecordKey.fromRecord right := by
  simp [resourceRecordsSemanticallyEqual]

end BoronDns
