import BoronDns.RdataNames

/-!
Records of a zone transfer. A record is read from a message with the names of
the older types written out, and it is zone content only when its class, type,
data and owner pass the checks of the scope.
-/

namespace BoronDns

open Bytes RecordType

variable (rdata : Rdata)

structure TransferExtendedDnsError where
  infoCode : UInt16
  extraText : String
  deriving DecidableEq

inductive AxfrError
  | emptyResponse
  | malformedMessage
  | mismatchedQid
  | notResponse
  | mismatchedOpcode
  | errorRcode (rcode : UInt8)
  | errorRcodeWithEde (rcode : UInt8) (ede : TransferExtendedDnsError)
  | mismatchedQuestion
  | missingInitialSoa
  | missingTerminatingSoa
  | mismatchedTerminatingSoa
  | middleSoa
  | trailingRecords
  | classMismatch
  | outOfZoneOwner
  | reservedType
  | prohibitedType
  | invalidRdata
  | invalidZoneSoa
  | missingApexNs
  | cnameCoexistsWithOtherData
  | multipleCnameRecords
  | dnameCoexistsWithCname
  | multipleDnameRecords
  | dnameCoexistsWithNs
  deriving DecidableEq

/-- `From<DnsParseError> for AxfrError`. -/
def orMalformed {α : Type} : Except DnsParseError α → Except AxfrError α :=
  Except.mapError fun _ => .malformedMessage

/-- The number in two octets of a buffer that holds them. -/
def u16At (bytes : List UInt8) (pos : ℕ) :
    UInt16 := fromBe16 (bytes.getD pos 0) (bytes.getD (pos + 1) 0)

def u32At (bytes : List UInt8) (pos : ℕ) : UInt32 :=
  fromBe32 (bytes.getD pos 0) (bytes.getD (pos + 1) 0) (bytes.getD (pos + 2) 0)
    (bytes.getD (pos + 3) 0)

section Reading

variable (message : List UInt8)

def parseRdataName (offset rdataEnd : ℕ) : Except DnsParseError (DomainName × ℕ) :=
  if rdataEnd ≤ offset then .error .formErr
  else do
    let (name, consumed) ← DomainName.parse message offset
    if rdataEnd < offset + consumed then .error .formErr else .ok (name, consumed)

variable (rdataOffset rdataEnd : ℕ)

def normalizeTwoNameRdata : Except DnsParseError Rdata := do
  let (first, consumedFirst) ← parseRdataName message rdataOffset rdataEnd
  let secondOffset := rdataOffset + consumedFirst
  let (second, consumedSecond) ← parseRdataName message secondOffset rdataEnd
  if secondOffset + consumedSecond ≠ rdataEnd then .error .formErr
  else .ok (first.toWire ++ second.toWire)

def normalizeSoaRdata : Except DnsParseError Rdata := do
  let (mname, consumedMname) ← parseRdataName message rdataOffset rdataEnd
  let rnameOffset := rdataOffset + consumedMname
  let (rname, consumedRname) ← parseRdataName message rnameOffset rdataEnd
  let timersOffset := rnameOffset + consumedRname
  if timersOffset + 20 ≠ rdataEnd then .error .formErr
  else .ok (mname.toWire ++ rname.toWire ++ (message.drop timersOffset).take
    (rdataEnd - timersOffset))

def normalizeMxRdata : Except DnsParseError Rdata :=
  let exchangeOffset := rdataOffset + 2
  if rdataEnd < exchangeOffset then .error .formErr
  else do
    let (exchange, consumed) ← parseRdataName message exchangeOffset rdataEnd
    if exchangeOffset + consumed ≠ rdataEnd then .error .formErr
    else .ok ((message.drop rdataOffset).take 2 ++ exchange.toWire)

def normalizeNameRdata : Except DnsParseError Rdata := do
  let (name, consumed) ← parseRdataName message rdataOffset rdataEnd
  if rdataOffset + consumed = rdataEnd then .ok name.toWire else .error .formErr

/-- The types of RFC 1035 whose data is one name: NS, MD, MF, CNAME, MB, MG, MR and PTR. -/
def isSingleNameType (rrType : UInt16) : Bool :=
  rrType == ns || rrType == 3 || rrType == 4 || rrType == cname || rrType == 7 ||
    rrType == 8 || rrType == 9 || rrType == ptr

/-- Names in the data of the older types may be compressed and are written out;
other data is kept as it is. -/
def normalizeTransferRdata (rrType : UInt16) (rdataOffset rdlength : ℕ) :
    Except DnsParseError Rdata :=
  let rdataEnd := rdataOffset + rdlength
  if message.length < rdataEnd then .error .formErr
  else if isSingleNameType rrType then normalizeNameRdata message rdataOffset rdataEnd
  else if rrType = soa then normalizeSoaRdata message rdataOffset rdataEnd
  else if rrType = mx then normalizeMxRdata message rdataOffset rdataEnd
  else if rrType = 14 then normalizeTwoNameRdata message rdataOffset rdataEnd
  else .ok ((message.drop rdataOffset).take rdlength)

/-- A TTL with the top bit set counts as zero. -/
def wireTtl (ttl : UInt32) : UInt32 := if ttl &&& 0x80000000 ≠ 0 then 0 else ttl

def parseRecord (offset : ℕ) : Except DnsParseError (ResourceRecord × ℕ) := do
  let (owner, consumed) ← DomainName.parse message offset
  let fixed := offset + consumed
  if message.length < fixed + 10 then .error .formErr
  else
    let rrType := u16At message fixed
    let rdlength := (u16At message (fixed + 8)).toNat
    if message.length < fixed + 10 + rdlength then .error .formErr
    else do
      let rdata ← normalizeTransferRdata message rrType (fixed + 10) rdlength
      .ok (⟨owner, rrType, u16At message (fixed + 2), wireTtl (u32At message (fixed + 4)), rdata⟩,
        consumed + 10 + rdlength)

end Reading

section Scope

def validateFixedRdata (expectedLen : ℕ) : Except AxfrError Unit :=
  if rdata.length = expectedLen then .ok () else .error .invalidRdata

def validateMinRdata (minLen : ℕ) : Except AxfrError Unit :=
  if minLen ≤ rdata.length then .ok () else .error .invalidRdata

variable (offset : ℕ)

/-- `skip_character_string` as the transfer checks use it. -/
def skipTransferString : Except AxfrError ℕ :=
  match skipCharacterString rdata offset with
  | none => .error .invalidRdata
  | some next => .ok next

theorem lt_of_skipCharacterString {rdata : Rdata} {offset next : ℕ}
    (h : skipCharacterString rdata offset = some next) : offset < next ∧ next ≤ rdata.length := by
  unfold skipCharacterString at h
  split at h
  · cases h
  · split at h
    next hfits =>
      obtain rfl := Option.some.inj h
      omega
    · cases h

def countCharacterStrings (rdata : Rdata) (offset count : ℕ) : Except AxfrError ℕ :=
  if offset < rdata.length then
    match h : skipCharacterString rdata offset with
    | none => .error .invalidRdata
    | some next => countCharacterStrings rdata next (count + 1)
  else .ok count
  termination_by rdata.length - offset
  decreasing_by
    have := lt_of_skipCharacterString h
    omega

def validateCharacterStrings (expectedCount : Option ℕ) : Except AxfrError Unit :=
  if rdata.length ≤ 0 then .error .invalidRdata
  else do
    let count ← countCharacterStrings rdata 0 0
    if expectedCount.all (· == count) then .ok () else .error .invalidRdata

def validateUncompressedDomainNameLoop (rdata : Rdata) (offset pos totalLen : ℕ) :
    Except AxfrError ℕ :=
  match h : rdata[pos]? with
  | none => .error .invalidRdata
  | some len =>
    if len &&& 0xc0 ≠ 0 then .error .invalidRdata
    else if len = 0 then .ok (pos + 1 - offset)
    else if 63 < len.toNat ∨ rdata.length < pos + 1 + len.toNat then .error .invalidRdata
    else if 255 < totalLen + (1 + len.toNat) then .error .invalidRdata
    else
      validateUncompressedDomainNameLoop rdata offset (pos + 1 + len.toNat)
        (totalLen + (1 + len.toNat))
  termination_by rdata.length - pos
  decreasing_by
    have := (List.getElem?_eq_some_iff.mp h).1
    omega

/-- The octets of the uncompressed name at `offset`. -/
def validateUncompressedDomainNameAt : Except AxfrError ℕ :=
  validateUncompressedDomainNameLoop rdata offset offset 1

def validateUncompressedDomainNameAtEnd : Except AxfrError Unit := do
  let consumed ← validateUncompressedDomainNameAt rdata offset
  if offset + consumed = rdata.length then .ok () else .error .invalidRdata

def validateUncompressedDomainNameRdata : Except AxfrError Unit := do
  let consumed ← validateUncompressedDomainNameAt rdata 0
  if consumed = rdata.length then .ok () else .error .invalidRdata

def validateNaptrRdata : Except AxfrError Unit :=
  if rdata.length < 8 then .error .invalidRdata
  else do
    let offset ← skipTransferString rdata 4
    let offset ← skipTransferString rdata offset
    let offset ← skipTransferString rdata offset
    validateUncompressedDomainNameAtEnd rdata offset

def validateDnskeyRdata : Except AxfrError Unit := do
  validateMinRdata rdata 4
  if rdata.getD 2 0 = 3 then .ok () else .error .invalidRdata

def validateTypeBitMapsLoop (bitMaps : List UInt8) (offset : ℕ) (lastWindow : Option UInt8) :
    Except AxfrError Unit :=
  if offset < bitMaps.length then
    if bitMaps.length < offset + 2 then .error .invalidRdata
    else
      let window := bitMaps.getD offset 0
      let bitmapLen := (bitMaps.getD (offset + 1) 0).toNat
      if bitmapLen = 0 ∨ 32 < bitmapLen ∨
        bitMaps.length < offset + 2 + bitmapLen then .error .invalidRdata
      else if lastWindow.any (window ≤ ·) then .error .invalidRdata
      else if bitMaps.getD (offset + 2 + bitmapLen - 1) 0 = 0 then .error .invalidRdata
      else validateTypeBitMapsLoop bitMaps (offset + 2 + bitmapLen) (some window)
  else .ok ()
  termination_by bitMaps.length - offset

def validateTypeBitMaps (bitMaps : List UInt8) (allowEmpty : Bool) : Except AxfrError Unit :=
  if bitMaps.isEmpty then if allowEmpty then .ok () else .error .invalidRdata
  else validateTypeBitMapsLoop bitMaps 0 none

def validateNsecRdata : Except AxfrError Unit := do
  let nextNameLen ← validateUncompressedDomainNameAt rdata 0
  validateTypeBitMaps (rdata.drop nextNameLen) false

def validateNsec3Rdata : Except AxfrError Unit :=
  if rdata.length < 6 then .error .invalidRdata
  else
    let hashLenOffset := 5 + (rdata.getD 4 0).toNat
    match rdata[hashLenOffset]? with
    | none => .error .invalidRdata
    | some hashLen =>
      if hashLen = 0 then .error .invalidRdata
      else
        let bitMapsOffset := hashLenOffset + 1 + hashLen.toNat
        if rdata.length < bitMapsOffset then .error .invalidRdata
        else validateTypeBitMaps (rdata.drop bitMapsOffset) true

def validateNsec3paramRdata : Except AxfrError Unit :=
  if rdata.length < 5 then .error .invalidRdata
  else if 5 + (rdata.getD 4 0).toNat = rdata.length then .ok ()
  else .error .invalidRdata

def validateUriRdata : Except AxfrError Unit :=
  if rdata.length < 5 then .error .invalidRdata else .ok ()

def validateSvcParams (rdata : Rdata) (offset : ℕ) (lastKey : Option UInt16) :
    Except AxfrError Unit :=
  if offset < rdata.length then
    if rdata.length < offset + 4 then .error .invalidRdata
    else
      let key := u16At rdata offset
      let len := (u16At rdata (offset + 2)).toNat
      if rdata.length < offset + 4 + len then .error .invalidRdata
      else if lastKey.any (key ≤ ·) then .error .invalidRdata
      else validateSvcParams rdata (offset + 4 + len) (some key)
  else .ok ()
  termination_by rdata.length - offset

/-- In alias mode, with priority zero, the parameters are not looked at. -/
def validateSvcbLikeRdata : Except AxfrError Unit :=
  if rdata.length < 3 then .error .invalidRdata
  else do
    let targetLen ← validateUncompressedDomainNameAt rdata 2
    if u16At rdata 0 = 0 then .ok () else validateSvcParams rdata (2 + targetLen) none

variable (record : ResourceRecord)

def validateKnownRdata : Except AxfrError Unit :=
  if record.rrType = RecordType.a then validateFixedRdata record.rdata 4
  else if record.rrType = aaaa then validateFixedRdata record.rdata 16
  else if record.rrType = ds then validateMinRdata record.rdata 4
  else if record.rrType = hinfo then validateCharacterStrings record.rdata (some 2)
  else if record.rrType = txt then validateCharacterStrings record.rdata none
  else if record.rrType = srv then validateUncompressedDomainNameAtEnd record.rdata 6
  else if record.rrType = naptr then validateNaptrRdata record.rdata
  else if record.rrType = dname then validateUncompressedDomainNameRdata record.rdata
  else if record.rrType = rrsig then do
    let _ ← validateUncompressedDomainNameAt record.rdata 18
    .ok ()
  else if record.rrType = dnskey then validateDnskeyRdata record.rdata
  else if record.rrType = nsec then validateNsecRdata record.rdata
  else if record.rrType = nsec3 then validateNsec3Rdata record.rdata
  else if record.rrType = nsec3Param then validateNsec3paramRdata record.rdata
  else if record.rrType = tlsa then validateMinRdata record.rdata 3
  else if record.rrType = svcb ∨ record.rrType = https then
    validateSvcbLikeRdata record.rdata
  else if record.rrType = uri then validateUriRdata record.rdata
  else .ok ()

def isProhibitedTransferContentType (rrType : UInt16) : Bool :=
  rrType == opt || rrType == tkey || rrType == tsig ||
    rrType == ixfr || rrType == axfr || rrType == 253 || rrType == 254 || rrType == 255

def validateRecordScope (zoneApex : DomainName) (qclass : UInt16) : Except AxfrError Unit :=
  if record.cls ≠ qclass then .error .classMismatch
  else if record.rrType = 0 ∨ record.rrType = 0xffff then .error .reservedType
  else if isProhibitedTransferContentType record.rrType then .error .prohibitedType
  else do
    validateKnownRdata record
    if record.owner.isEqualOrSubdomainOf zoneApex then .ok () else .error .outOfZoneOwner

end Scope

def soaSerial : Except AxfrError UInt32 := do
  let (_, rnameOffset) ← orMalformed (DomainName.parse rdata 0)
  let (_, consumedRname) ← orMalformed (DomainName.parse rdata rnameOffset)
  let serialOffset := rnameOffset + consumedRname
  if serialOffset + 20 ≠ rdata.length then .error .malformedMessage
  else .ok (u32At rdata serialOffset)

end BoronDns
