import BoronDns.ResponseMessage
import BoronDns.SnapshotRecords
import BoronDns.ZoneRecordSet

/-!
Zone transfer responses. A full transfer (AXFR) sends the records of a zone
between two copies of its SOA. An incremental transfer (IXFR) sends difference
sequences, each with the SOA and the records to delete and then the SOA and the
records to add; they are applied to the RRsets they touch, and the changed zone is
checked at the names they touch. An incremental response may also be a full one.
-/

namespace BoronDns

open Bytes RecordType

variable {platform : Platform} (identity : ℕ) (qid : UInt16) (zoneApex : DomainName)
  (qclass : UInt16) (currentZone : ZoneSnapshot platform) (workingRrsets : WorkingRrsets)
  (record : ResourceRecord) (messages : List (List UInt8))

section Messages

def Header.isResponse (header : Header) : Bool := header.flags &&& 0x8000 != 0

def Header.opcodeValue (header : Header) : UInt8 := ((header.flags >>> 11) &&& 0x0f).toUInt8

def Header.rcodeValue (header : Header) : UInt8 := (header.flags &&& 0x000f).toUInt8

/-- The header of a message with the counts of its sections. -/
structure MessageHeader extends Header where
  qdcount : UInt16
  ancount : UInt16
  nscount : UInt16
  arcount : UInt16

def MessageHeader.parse (packet : List UInt8) : Except DnsParseError MessageHeader :=
  if packet.length < dnsHeaderLen then .error .shortHeader
  else .ok ⟨⟨u16At packet 0, u16At packet 2⟩, u16At packet 4, u16At packet 6, u16At packet 8,
    u16At packet 10⟩

variable (message : List UInt8)

def skipRawDnsRecord (offset : ℕ) : Option ℕ :=
  match DomainName.parse message offset with
  | .error _ => none
  | .ok (_, consumed) =>
    let fixedOffset := offset + consumed
    if message.length < fixedOffset + 10 then none
    else
      let stop := fixedOffset + 10 + (u16At message (fixedOffset + 8)).toNat
      if stop ≤ message.length then some stop else none

def skipRawDnsRecords (message : List UInt8) : ℕ → ℕ → Option ℕ
  | 0, offset => some offset
  | count + 1, offset => (skipRawDnsRecord message offset).bind (skipRawDnsRecords message count)

def skipRawQuestions (message : List UInt8) : ℕ → ℕ → Option ℕ
  | 0, offset => some offset
  | count + 1, offset =>
    match DomainName.parse message offset with
    | .error _ => none
    | .ok (_, consumed) =>
      let next := offset + consumed + 4
      if message.length < next then none else skipRawQuestions message count next

/-- The first extended error among the options of an OPT record; nothing at all when an
option is cut off or its text is not UTF-8. -/
def findExtendedDnsError (rdata : List UInt8) (offset : ℕ) :
    Option (Option TransferExtendedDnsError) :=
  if offset < rdata.length then
    if rdata.length < offset + 4 then none
    else
      let optionLen := (u16At rdata (offset + 2)).toNat
      if rdata.length < offset + 4 + optionLen then none
      else if u16At rdata offset = 15 ∧ 2 ≤ optionLen then
        let text := (rdata.drop (offset + 6)).take (optionLen - 2)
        (String.fromUTF8? ⟨text.toArray⟩).map fun extraText => some ⟨u16At rdata (offset + 4),
          extraText⟩
      else findExtendedDnsError rdata (offset + 4 + optionLen)
  else some none
  termination_by rdata.length - offset

def additionalExtendedDnsError (message : List UInt8) : ℕ → ℕ → Option TransferExtendedDnsError
  | 0, _ => none
  | count + 1, offset =>
    match DomainName.parse message offset with
    | .error _ => none
    | .ok (owner, consumed) =>
      let fixedOffset := offset + consumed
      if message.length < fixedOffset + 10 then none
      else
        let rdlength := (u16At message (fixedOffset + 8)).toNat
        let next := fixedOffset + 10 + rdlength
        if message.length < next then none
        else if owner.labelCount ≠ 0 ∨ u16At message fixedOffset ≠ opt then
          additionalExtendedDnsError message count next
        else
          match findExtendedDnsError ((message.drop (fixedOffset + 10)).take rdlength) 0 with
          | none => none
          | some (some found) => some found
          | some none => additionalExtendedDnsError message count next

def transferExtendedDnsError (header : MessageHeader) : Option TransferExtendedDnsError := do
  let offset ← skipRawQuestions message header.qdcount.toNat dnsHeaderLen
  let offset ← skipRawDnsRecords message (header.ancount.toNat + header.nscount.toNat) offset
  additionalExtendedDnsError message header.arcount.toNat offset

/-- The errors for a message that is no response to the query, for one kind of transfer. -/
structure ResponseErrors (ε : Type) where
  malformedMessage : ε
  mismatchedQid : ε
  notResponse : ε
  mismatchedOpcode : ε
  mismatchedQuestion : ε
  rcodeError : UInt8 → Option TransferExtendedDnsError → ε

variable {ε : Type} (errors : ResponseErrors ε)

def checkResponseHeader (qid : UInt16) (message : List UInt8) : Except ε MessageHeader := do
  let header ← (MessageHeader.parse message).mapError fun _ => errors.malformedMessage
  if header.id ≠ qid then .error errors.mismatchedQid
  else if !header.isResponse then .error errors.notResponse
  else if header.opcodeValue ≠ 0 then .error errors.mismatchedOpcode
  else if header.rcodeValue ≠ 0 then
    .error (errors.rcodeError header.rcodeValue (transferExtendedDnsError message header))
  else .ok header

/-- Where the answers start. Only the first message of a response needs a question. -/
def validateResponseQuestion (message : List UInt8) (qdcount : UInt16)
    (zoneApex : DomainName) (qtype qclass : UInt16) (requireQuestion : Bool) : Except ε ℕ :=
  if qdcount = 0 ∧ requireQuestion = false then .ok dnsHeaderLen
  else if qdcount ≠ 1 then .error errors.mismatchedQuestion
  else do
    let (qname, consumed) ← (DomainName.parse message dnsHeaderLen).mapError fun _ =>
      errors.malformedMessage
    let offset := dnsHeaderLen + consumed
    if message.length < offset + 4 then .error errors.malformedMessage
    else if qname.canonicalKey ≠ zoneApex.canonicalKey ∨ u16At message offset ≠ qtype ∨
        u16At message (offset + 2) ≠ qclass then
      .error errors.mismatchedQuestion
    else .ok (offset + 4)

def checkOptOptions (message : List UInt8) (rdataEnd offset : ℕ) : Except DnsParseError Unit :=
  if offset < rdataEnd then
    if rdataEnd < offset + 4 then .error .formErr
    else
      let next := offset + 4 + (u16At message (offset + 2)).toNat
      if next ≤ rdataEnd then checkOptOptions message rdataEnd next else .error .formErr
  else .ok ()
  termination_by rdataEnd - offset

/-- After the answers stands at most an OPT record. -/
def ensureNoAuthorityAndOnlyOptAdditional (offset : ℕ) (nscount arcount : UInt16) :
    Except DnsParseError Unit :=
  if nscount ≠ 0 ∨ 1 < arcount then .error .formErr
  else if arcount = 1 then do
    let (owner, consumed) ← DomainName.parse message offset
    let fixed := offset + consumed
    if owner.labelCount ≠ 0 ∨ message.length < fixed + 10 then .error .formErr
    else
      let rdataEnd := fixed + 10 + (u16At message (fixed + 8)).toNat
      if message.length < rdataEnd then .error .formErr
      else if u16At message fixed ≠ opt then .error .formErr
      else do
        checkOptOptions message rdataEnd (fixed + 10)
        if rdataEnd = message.length then .ok () else .error .formErr
  else if offset = message.length then .ok ()
  else .error .formErr

end Messages

section Axfr

def axfrErrors : ResponseErrors AxfrError where
  malformedMessage := .malformedMessage
  mismatchedQid := .mismatchedQid
  notResponse := .notResponse
  mismatchedOpcode := .mismatchedOpcode
  mismatchedQuestion := .mismatchedQuestion
  rcodeError rcode ede := ede.elim (.errorRcode rcode) (.errorRcodeWithEde rcode)

/-- What is known of a full transfer after some of its records. -/
structure AxfrProgress where
  initialSoa : Option ResourceRecord := none
  zoneSerial : Option UInt32 := none
  zoneRecords : List ResourceRecord := []
  complete : Bool := false
  sawResponseQuestion : Bool := false

def AxfrProgress.add (progress : AxfrProgress) (zoneApex : DomainName) (record : ResourceRecord) :
    Except AxfrError AxfrProgress :=
  if record.rrType = soa then
    match progress.initialSoa with
    | none =>
      if record.owner.canonicalKey ≠ zoneApex.canonicalKey then .error .missingInitialSoa
      else do
        let serial ← soaSerial record.rdata
        .ok { progress with
          initialSoa := some record
          zoneSerial := some serial
          zoneRecords := progress.zoneRecords ++ [record] }
    | some initial =>
      if resourceRecordsSemanticallyEqual record initial then .ok { progress with complete := true }
      else .error .mismatchedTerminatingSoa
  else if progress.initialSoa.isNone then .error .missingInitialSoa
  else .ok { progress with zoneRecords := progress.zoneRecords ++ [record] }

def axfrAnswers (zoneApex : DomainName) (qclass : UInt16) (message : List UInt8) :
    ℕ → ℕ → AxfrProgress → Except AxfrError (AxfrProgress × ℕ)
  | 0, offset, progress => .ok (progress, offset)
  | count + 1, offset, progress =>
    if progress.complete then .error .trailingRecords
    else do
      let (record, consumed) ← orMalformed (parseRecord message offset)
      validateRecordScope record zoneApex qclass
      let progress ← progress.add zoneApex record
      axfrAnswers zoneApex qclass message count (offset + consumed) progress

variable (qtype : UInt16)

def axfrMessage (progress : AxfrProgress) (message : List UInt8) :
    Except AxfrError AxfrProgress := do
  let header ← checkResponseHeader axfrErrors qid message
  let offset ← validateResponseQuestion axfrErrors message header.qdcount zoneApex qtype qclass
    (!progress.sawResponseQuestion)
  let progress :=
    { progress with sawResponseQuestion := progress.sawResponseQuestion || header.qdcount == 1 }
  let (progress, offset) ← axfrAnswers zoneApex qclass message header.ancount.toNat offset progress
  orMalformed (ensureNoAuthorityAndOnlyOptAdditional message offset header.nscount header.arcount)
  .ok progress

/-- The records of a complete full transfer, and its serial. -/
def axfrZoneRecords (messages : List (List UInt8)) :
    Except AxfrError (List ResourceRecord × Option UInt32) :=
  if messages.isEmpty then .error .emptyResponse
  else do
    let progress ← messages.foldlM (axfrMessage qid zoneApex qclass qtype) {}
    if progress.initialSoa.isNone then .error .missingInitialSoa
    else if !progress.complete then .error .missingTerminatingSoa
    else .ok (progress.zoneRecords, progress.zoneSerial)

def parseAxfrResponseWithQuestion (messages : List (List UInt8)) :
    Except AxfrError (ZoneSnapshot platform) := do
  let (zoneRecords, zoneSerial) ← axfrZoneRecords qid zoneApex qclass qtype messages
  validateZoneRecordSet zoneApex zoneRecords
  .ok (ZoneSnapshot.active identity zoneApex zoneSerial (rrsetsFromRecords zoneRecords))

def parseAxfrResponse : Except AxfrError (ZoneSnapshot platform) :=
  parseAxfrResponseWithQuestion identity qid zoneApex qclass axfr messages

end Axfr

section Ixfr

inductive IxfrError
  | invalidCurrentSoa
  | emptyResponse
  | malformedMessage
  | mismatchedQid
  | notResponse
  | mismatchedOpcode
  | errorRcode (rcode : UInt8)
  | errorRcodeWithEde (rcode : UInt8) (ede : TransferExtendedDnsError)
  | mismatchedQuestion
  | missingInitialSoa
  | incompleteResponse
  | brokenSoaChain
  | serialNotForward
  | deleteAbsentRecord
  | addExistingRecord
  | axfr (error : AxfrError)
  deriving DecidableEq

def ixfrErrors : ResponseErrors IxfrError where
  malformedMessage := .malformedMessage
  mismatchedQid := .mismatchedQid
  notResponse := .notResponse
  mismatchedOpcode := .mismatchedOpcode
  mismatchedQuestion := .mismatchedQuestion
  rcodeError rcode ede := ede.elim (.errorRcode rcode) (.errorRcodeWithEde rcode)

def ixfrScopeError : AxfrError → IxfrError
  | .malformedMessage => .malformedMessage
  | .errorRcode rcode => .errorRcode rcode
  | .errorRcodeWithEde rcode ede => .errorRcodeWithEde rcode ede
  | .missingInitialSoa => .missingInitialSoa
  | other => .axfr other

def validateCurrentSoa (zoneApex : DomainName) (qclass : UInt16) : Except IxfrError Unit :=
  if record.owner.toAsciiLowercased ≠ zoneApex.toAsciiLowercased ∨ record.rrType ≠ soa ∨
      record.cls ≠ qclass then
    .error .invalidCurrentSoa
  else do
    let _ ← (soaSerial record.rdata).mapError fun _ => .invalidCurrentSoa
    .ok ()

structure IxfrDeltaSequence where
  oldSoa : ResourceRecord
  deletes : List ResourceRecord
  newSoa : ResourceRecord
  adds : List ResourceRecord

variable (delta : IxfrDeltaSequence)

/-- The records of a sequence as they are sent. -/
def IxfrDeltaSequence.records : List ResourceRecord :=
  delta.oldSoa :: delta.deletes ++ delta.newSoa :: delta.adds

structure IxfrDelta where
  oldSerial : UInt32
  newSerial : UInt32
  sequences : List IxfrDeltaSequence

/-- The RRsets that some record of the sequences belongs to. -/
def IxfrDelta.affectedRrsets (delta : IxfrDelta) : List RrsetKey :=
  (delta.sequences.flatMap fun sequence => sequence.records.map rrsetIdentity).dedup

def isSoa : Bool := record.rrType == soa

theorem isSoa_iff : isSoa record = true ↔ record.rrType = soa :=
  beq_iff_eq

/-- The sequences in the answers behind the first, the SOA the last of them ends with, and
whether the terminating SOA was seen. -/
def deltaSequences (zoneApex : DomainName) (qclass : UInt16)
    (outerSoa expectedOldSoa : ResourceRecord) (answers : List ResourceRecord) :
    Except IxfrError (List IxfrDeltaSequence × ResourceRecord × Bool) :=
  match answers with
  | [] => .ok ([], expectedOldSoa, false)
  | oldSoa :: rest =>
    if resourceRecordsSemanticallyEqual oldSoa outerSoa &&
        resourceRecordsSemanticallyEqual expectedOldSoa outerSoa then
      if rest.isEmpty then .ok ([], expectedOldSoa, true) else .error .brokenSoaChain
    else if !isSoa oldSoa || !resourceRecordsSemanticallyEqual oldSoa expectedOldSoa
      then .error .brokenSoaChain
    else
      match _hrest : rest.dropWhile fun record => !isSoa record with
      | [] => .error .incompleteResponse
      | newSoa :: afterSoa =>
        if newSoa.owner.canonicalKey ≠ zoneApex.canonicalKey ∨
          newSoa.cls ≠ qclass then .error .brokenSoaChain
        else do
          let _ ← (soaSerial newSoa.rdata).mapError fun _ => IxfrError.malformedMessage
          let (sequences, finalSoa, terminated) ← deltaSequences zoneApex qclass outerSoa newSoa
            (afterSoa.dropWhile fun record => !isSoa record)
          .ok (⟨oldSoa, rest.takeWhile fun record => !isSoa record, newSoa,
            afterSoa.takeWhile fun record => !isSoa record⟩ :: sequences, finalSoa, terminated)
  termination_by answers.length
  decreasing_by
    have hfirst := (List.dropWhile_suffix (l := rest) fun record => !isSoa record).length_le
    have hsecond := (List.dropWhile_suffix (l := afterSoa) fun record => !isSoa record).length_le
    rw [_hrest, List.length_cons] at hfirst
    rw [List.length_cons]
    omega

variable (currentSoa : ResourceRecord)

def parseIxfrIncrementalDeltaParts (answers : List ResourceRecord) :
    Except IxfrError (IxfrDelta × Bool) := do
  validateCurrentSoa currentSoa zoneApex qclass
  match answers with
  | [] => .error .missingInitialSoa
  | outerSoa :: rest => do
    (validateCurrentSoa outerSoa zoneApex qclass).mapError fun _ => IxfrError.missingInitialSoa
    let oldSerial ← (soaSerial currentSoa.rdata).mapError fun _ => IxfrError.invalidCurrentSoa
    let newSerial ← (soaSerial outerSoa.rdata).mapError fun _ => IxfrError.malformedMessage
    let serialDistance := newSerial - oldSerial
    if serialDistance = 0 ∨ 0x80000000 ≤ serialDistance then .error .serialNotForward
    else do
      let (sequences, finalSoa, terminated) ← deltaSequences zoneApex qclass
        outerSoa currentSoa rest
      if terminated then do
        let finalSerial ← (soaSerial finalSoa.rdata).mapError fun _ => IxfrError.malformedMessage
        if !resourceRecordsSemanticallyEqual finalSoa outerSoa || finalSerial != newSerial then
          .error .brokenSoaChain
        else .ok (⟨oldSerial, newSerial, sequences⟩, true)
      else .ok (⟨oldSerial, newSerial, sequences⟩, false)

/-- The records of an RRset that is being changed, with the place of each. -/
structure WorkingRrset where
  records : List ResourceRecord
  indexes : AList (fun _ : RecordKey => ℕ)

def swapRemove {α : Type} (items : List α) (index : ℕ) : List α :=
  match items.getLast? with
  | none => items
  | some last => (items.set index last).dropLast

namespace WorkingRrset

def fromRecords (records : List ResourceRecord) : WorkingRrset :=
  ⟨records,
    records.zipIdx.foldl (fun indexes entry => indexes.insert
    (RecordKey.fromRecord entry.1) entry.2) ∅⟩

variable (working : WorkingRrset)

def remove (record : ResourceRecord) : Option WorkingRrset :=
  match working.indexes.lookup (RecordKey.fromRecord record) with
  | none => none
  | some index =>
    let indexes := working.indexes.erase (RecordKey.fromRecord record)
    let records := swapRemove working.records index
    match records[index]? with
    | none => some ⟨records, indexes⟩
    | some moved => some ⟨records, indexes.insert (RecordKey.fromRecord moved) index⟩

def add (record : ResourceRecord) : WorkingRrset :=
  if (working.indexes.lookup (RecordKey.fromRecord record)).isSome then working
  else
    ⟨working.records ++ [record],
      working.indexes.insert (RecordKey.fromRecord record) working.records.length⟩

end WorkingRrset

abbrev WorkingRrsets := AList (fun _ : RrsetKey => WorkingRrset)

def workingRrset (key : RrsetKey) : WorkingRrset :=
  (workingRrsets.lookup key).getD (.fromRecords (currentZone.transferRrsetRecordsByKey key))

def removeDeltaRecord : Except IxfrError WorkingRrsets :=
  let key := rrsetIdentity record
  match (workingRrset currentZone workingRrsets key).remove record with
  | none => .error .deleteAbsentRecord
  | some working => .ok (workingRrsets.insert key working)

def addDeltaRecord : WorkingRrsets :=
  let key := rrsetIdentity record
  workingRrsets.insert key ((workingRrset currentZone workingRrsets key).add record)

def applyDeltaSequence : Except IxfrError WorkingRrsets := do
  let workingRrsets ← removeDeltaRecord currentZone workingRrsets delta.oldSoa
  let workingRrsets ← delta.deletes.foldlM (removeDeltaRecord currentZone) workingRrsets
  .ok (delta.adds.foldl (addDeltaRecord currentZone)
    (addDeltaRecord currentZone workingRrsets delta.newSoa))

def replacementsOf : List Replacement :=
  workingRrsets.entries.map fun entry => (entry.1, (rrsetsFromRecords entry.2.records).getLast?)

/-- The names at which a delta changes something, in order. -/
def affectedOwners (delta : IxfrDelta) : List NameKey :=
  (delta.affectedRrsets.map RrsetKey.owner).dedup.mergeSort fun left right => decide (left ≤ right)

def validateIncrementalZone (updated : ZoneSnapshot platform) (delta : IxfrDelta) :
    Except IxfrError Unit :=
  let apexKey := zoneApex.canonicalKey
  if (updated.transferRrsetRecordsByKey ⟨apexKey, soa, qclass⟩).length ≠ 1 ∨
      updated.soaRecordCount ≠ 1 then
    .error (.axfr .invalidZoneSoa)
  else if (updated.transferRrsetRecordsByKey ⟨apexKey, ns, qclass⟩).isEmpty then
    .error (.axfr .missingApexNs)
  else
    (validateCnameAndDnameCoexistence zoneApex
      ((affectedOwners delta).flatMap updated.transferRecordsAtNameKey)).mapError .axfr

inductive IxfrResponse (platform : Platform)
  | updated (snapshot : ZoneSnapshot platform)
  | current

def applyIxfrIncremental (answers : List ResourceRecord) :
    Except IxfrError (IxfrResponse platform) := do
  let (delta, terminated) ← parseIxfrIncrementalDeltaParts zoneApex qclass currentSoa answers
  let workingRrsets ← delta.sequences.foldlM (applyDeltaSequence currentZone) ∅
  if !terminated then .error .incompleteResponse
  else do
    let updated :=
      currentZone.withCowRrsetReplacements identity delta.newSerial (replacementsOf workingRrsets)
    validateIncrementalZone zoneApex qclass updated delta
    .ok (.updated updated)

def readIxfrAnswers (zoneApex : DomainName) (qclass : UInt16) (message : List UInt8) :
    ℕ → ℕ → List ResourceRecord → Except IxfrError (List ResourceRecord × ℕ)
  | 0, offset, answers => .ok (answers, offset)
  | count + 1, offset, answers => do
    let (record, consumed) ← (parseRecord message offset).mapError fun _ =>
      IxfrError.malformedMessage
    (validateRecordScope record zoneApex qclass).mapError ixfrScopeError
    readIxfrAnswers zoneApex qclass message count (offset + consumed)
      (answers ++ [normalizeRecordOwner record])

def ixfrMessage (progress : List ResourceRecord × Bool) (message : List UInt8) :
    Except IxfrError (List ResourceRecord × Bool) := do
  let header ← checkResponseHeader ixfrErrors qid message
  let offset ← validateResponseQuestion ixfrErrors message header.qdcount zoneApex ixfr qclass
    (!progress.2)
  let (answers, offset) ← readIxfrAnswers zoneApex qclass message header.ancount.toNat
    offset progress.1
  (ensureNoAuthorityAndOnlyOptAdditional message offset header.nscount header.arcount).mapError
    fun _ => IxfrError.malformedMessage
  .ok (answers, progress.2 || header.qdcount == 1)

/-- The answers of all messages, in order, with lowercased owners. -/
def ixfrAnswers : Except IxfrError (List ResourceRecord) := do
  let (answers, _) ← messages.foldlM (ixfrMessage qid zoneApex qclass) ([], false)
  .ok answers

def parseIxfrResponse : Except IxfrError (IxfrResponse platform) :=
  match currentZone.transferSoaRecord qclass with
  | none => .error .invalidCurrentSoa
  | some soa => do
    let currentSoa := normalizeRecordOwner soa
    validateCurrentSoa currentSoa zoneApex qclass
    if messages.isEmpty then .error .emptyResponse
    else do
      let answers ← ixfrAnswers qid zoneApex qclass messages
      match answers with
      | [] => .error .missingInitialSoa
      | first :: rest =>
        if first.owner.canonicalKey ≠ zoneApex.canonicalKey ∨ first.rrType ≠ RecordType.soa then
          .error .missingInitialSoa
        else
          match rest with
          | [] => do
            let responseSerial ← (soaSerial first.rdata).mapError fun _ =>
              IxfrError.malformedMessage
            let currentSerial ← (soaSerial currentSoa.rdata).mapError fun _ =>
              IxfrError.invalidCurrentSoa
            if responseSerial = currentSerial then .ok .current else .error .incompleteResponse
          | second :: _ =>
            if second.rrType = RecordType.soa then
              applyIxfrIncremental identity zoneApex qclass currentZone currentSoa answers
            else
              (parseAxfrResponseWithQuestion identity qid zoneApex qclass ixfr messages).mapError
                IxfrError.axfr |>.map .updated

end Ixfr

end BoronDns
