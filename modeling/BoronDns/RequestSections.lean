import BoronDns.Edns
import BoronDns.Lib.Outcome
import BoronDns.Lib.PrefixCode
import BoronDns.NameParsing
import BoronDns.ResponseMessage

/-!
The sections of a request behind its question. The parser walks the counted
records, keeps the one OPT record it meets among the additional records and
reads its options. It accepts exactly the requests whose records fill the packet
and whose OPT record stands where it may, with options it can read; an error
tells what the OPT record asked for as soon as such a record has been read.
-/

namespace BoronDns

open Bytes PrefixCode List RecordType
open Outcome (error_bind exists_u16At ofExcept_ok ok_bind u16At_of_at u32At_of_at)

variable {packet : List UInt8} {offset next : ℕ} {record : ParsedRecordView}

inductive Opcode
  | query
  | notify
  deriving DecidableEq, Repr

def Header.opcode (header : Header) : Option Opcode :=
  match ((header.flags >>> 11) &&& 0x0f).toNat with
  | 0 => some .query
  | 4 => some .notify
  | _ => none

/-- The counts of a request's header that the parser reads. -/
structure RequestHeader extends Header where
  ancount : UInt16
  nscount : UInt16
  arcount : UInt16

structure EdnsRequestCookie extends EdnsCookie where
  server : Option (List UInt8)

structure EdnsOptions where
  tcpKeepaliveRequested : Bool
  malformedTcpKeepalive : Bool
  nsidRequested : Bool
  cookie : Option EdnsRequestCookie
  paddingRequested : Bool

def EdnsOptions.default : EdnsOptions := ⟨false, false, false, none, false⟩

/-- The metadata of an OPT record, with the fields that only the checks of the
request read. -/
structure RequestEdns extends EdnsMetadata where
  version : UInt8
  malformedTcpKeepalive : Bool
  serverCookie : Option (List UInt8)

/-- An error and the metadata the reply is built from, if there is any. -/
inductive EdnsError
  | formErr
  | formErrWithMetadata (edns : Option RequestEdns)
  | badVers (edns : Option RequestEdns)

def EdnsError.edns : EdnsError → Option RequestEdns
  | formErr => none
  | formErrWithMetadata edns => edns
  | badVers edns => edns

structure ParsedRecordView where
  ownerIsRoot : Bool
  rrType : UInt16
  cls : UInt16
  ttl : UInt32
  rdataOffset : ℕ
  rdata : List UInt8

namespace RequestSections

def parseRecordViewInner (packet : List UInt8) (start : ℕ) (expectedOwner : Option DomainName) :
    Outcome EdnsError (ParsedRecordView × Bool × ℕ) := do
  let ownerScan ← Outcome.ofExcept (fun _ => .formErr)
    (scanCompressedName packet start expectedOwner)
  let offset := start + ownerScan.consumed
  if packet.length < offset + 10 then .error .formErr
  else do
    let rrType ← Outcome.u16At packet offset
    let cls ← Outcome.u16At packet (offset + 2)
    let ttl ← Outcome.u32At packet (offset + 4)
    let rdlength ← Outcome.u16At packet (offset + 8)
    if packet.length < offset + 10 + rdlength.toNat then .error .formErr
    else do
      let rdata ← Outcome.slice packet (offset + 10) (offset + 10 + rdlength.toNat)
      .ok (⟨decide (ownerScan.labelCount = 0), rrType, cls, ttl, offset + 10, rdata⟩,
        ownerScan.matchesExpected, offset + 10 + rdlength.toNat - start)

def parseRecordView (packet : List UInt8) (offset : ℕ) :
    Outcome EdnsError (ParsedRecordView × ℕ) := do
  let (record, _, consumed) ← parseRecordViewInner packet offset none
  .ok (record, consumed)

def parseRecordHeader (packet : List UInt8) (start : ℕ) : Outcome EdnsError (UInt16 × ℕ) := do
  let ownerScan ← Outcome.ofExcept (fun _ => .formErr) (scanCompressedName packet start none)
  let offset := start + ownerScan.consumed
  if packet.length < offset + 10 then .error .formErr
  else do
    let rrType ← Outcome.u16At packet offset
    let rdlength ← Outcome.u16At packet (offset + 8)
    if packet.length < offset + 10 + rdlength.toNat then .error .formErr
    else .ok (rrType, offset + 10 + rdlength.toNat - start)

def parseEdnsCookieOption (rdata : List UInt8) : Outcome EdnsError EdnsRequestCookie :=
  if rdata.length ≠ 8 ∧ ¬ (8 + 8 ≤ rdata.length ∧ rdata.length ≤ 8 + 32) then .error .formErr
  else do
    let client ← Outcome.slice rdata 0 8
    let server ← if 8 < rdata.length then some <$> Outcome.slice rdata 8 rdata.length else .ok none
    -- the slice is copied into an array of its length
    if client_length : client.length = 8 then .ok { client, client_length, server } else .stopped

/-- What one option does to the options read so far. -/
def applyEdnsOption (options : EdnsOptions) (code : UInt16) (value : List UInt8) :
    Outcome EdnsError EdnsOptions :=
  if code = 3 then
    .ok { options with nsidRequested := true }
  else if code = 10 then
    if options.cookie.isNone then do
      let cookie ← parseEdnsCookieOption value
      .ok { options with cookie := some cookie }
    else
      .ok options
  else if code = 11 then
    if value.length = 0 then
      .ok { options with tcpKeepaliveRequested := true }
    else
      .ok { options with malformedTcpKeepalive := true }
  else if code = 12 then
    if options.paddingRequested then .error .formErr
    else .ok { options with paddingRequested := true }
  else
    .ok options

def parseEdnsOptionsLoop (rdata : List UInt8) (offset : ℕ) (options : EdnsOptions) :
    Outcome EdnsError EdnsOptions :=
  if offset < rdata.length then
    if rdata.length < offset + 4 then .error .formErr
    else do
      let optionCode ← Outcome.u16At rdata offset
      let optionLen ← Outcome.u16At rdata (offset + 2)
      if rdata.length < offset + 4 + optionLen.toNat then .error .formErr
      else do
        let value ← Outcome.slice rdata (offset + 4) (offset + 4 + optionLen.toNat)
        let options ← applyEdnsOption options optionCode value
        parseEdnsOptionsLoop rdata (offset + 4 + optionLen.toNat) options
  else
    .ok options
  termination_by rdata.length - offset

def parseEdnsOptions (rdata : List UInt8) : Outcome EdnsError EdnsOptions :=
  parseEdnsOptionsLoop rdata 0 EdnsOptions.default

/-- The metadata an OPT record gives by its class and TTL alone. -/
def fixedMetadata (record : ParsedRecordView) : RequestEdns where
  payloadSize := if record.cls < 512 then 512 else record.cls
  version := ((record.ttl >>> 16) &&& 0xff).toUInt8
  doBit := record.ttl &&& 0x8000 != 0
  tcpKeepaliveRequested := false
  malformedTcpKeepalive := false
  nsidRequested := false
  cookie := none
  serverCookie := none
  paddingRequested := false

def withOptions (fixed : RequestEdns) (options : EdnsOptions) : RequestEdns :=
  { fixed with
    tcpKeepaliveRequested := options.tcpKeepaliveRequested
    malformedTcpKeepalive := options.malformedTcpKeepalive
    nsidRequested := options.nsidRequested
    cookie := options.cookie.map (·.toEdnsCookie)
    serverCookie := options.cookie.bind (·.server)
    paddingRequested := options.paddingRequested }

/-- What one additional record does to the metadata read so far. -/
def addRecord (edns : Option RequestEdns) (record : ParsedRecordView) :
    Outcome EdnsError (Option RequestEdns) :=
  if record.rrType = opt then
    if edns.isSome || !record.ownerIsRoot then
      .error (.formErrWithMetadata (edns.or (some (fixedMetadata record))))
    else
      match parseEdnsOptions record.rdata with
      | .ok options => .ok (some (withOptions (fixedMetadata record) options))
      | .error .formErr => .error (.formErrWithMetadata (some (fixedMetadata record)))
      | .error other => .error other
      | .stopped => .stopped
  else
    .ok edns

/-- The loops over the answer and authority records, in which no OPT may
stand. -/
def skipRecords (packet : List UInt8) : ℕ → ℕ → Outcome EdnsError ℕ
  | 0, offset => .ok offset
  | count + 1, offset => do
    let (rrType, consumed) ← parseRecordHeader packet offset
    if rrType = opt then .error .formErr
    else skipRecords packet count (offset + consumed)

/-- The additional record at an offset; a record that cannot be read is
reported with the metadata of an OPT record before it. -/
def nextAdditional (packet : List UInt8) (offset : ℕ) (edns : Option RequestEdns) :
    Outcome EdnsError (ParsedRecordView × ℕ) :=
  match parseRecordView packet offset with
  | .error .formErr => if edns.isSome then .error (.formErrWithMetadata edns) else .error .formErr
  | other => other

def additionalRecords (packet : List UInt8) :
    ℕ → ℕ → Option RequestEdns → Outcome EdnsError (ℕ × Option RequestEdns)
  | 0, offset, edns => .ok (offset, edns)
  | count + 1, offset, edns => do
    let (record, consumed) ← nextAdditional packet offset edns
    let edns ← addRecord edns record
    additionalRecords packet count (offset + consumed) edns

/-- The checks after the last record. -/
def finishParse (packet : List UInt8) (offset : ℕ) (edns : Option RequestEdns) :
    Outcome EdnsError (Option RequestEdns) :=
  if offset ≠ packet.length then
    if edns.isSome then .error (.formErrWithMetadata edns) else .error .formErr
  else if edns.any fun metadata => 0 < metadata.version then
    .error (.badVers edns)
  else
    .ok edns

/-- `RequestMetadata::parse_from_offset`; the extended response code and error
of what it returns are always empty. -/
def parseFromOffset (header : RequestHeader) (packet : List UInt8) (offset : ℕ) :
    Outcome EdnsError (Option RequestEdns) :=
  if header.opcode = some .query ∧ (header.ancount ≠ 0 ∨ header.nscount ≠ 0) then
    .error .formErr
  else do
    let offset ← skipRecords packet header.ancount.toNat offset
    let offset ← skipRecords packet header.nscount.toNat offset
    let (offset, edns) ← additionalRecords packet header.arcount.toNat offset none
    finishParse packet offset edns

/-- A record stands at an offset: its name, the ten octets of its fixed part
and the data they count. -/
structure RecordAt (packet : List UInt8) (offset : ℕ) (record : ParsedRecordView) (next : ℕ) :
    Prop where
  owner : ∃ labels pointers, WireNameAt packet offset labels pointers (record.rdataOffset - 10) ∧
    pointers ≤ 128 ∧ (labelsWire labels).length + 1 ≤ 255 ∧
    record.ownerIsRoot = decide (labels.length = 0)
  fixed : At packet (record.rdataOffset - 10) (be16 record.rrType ++ (be16 record.cls ++
    (be32 record.ttl ++ (be16 (UInt16.ofNat record.rdata.length) ++ record.rdata))))
  rdata_offset : 10 ≤ record.rdataOffset
  rdata_length : record.rdata.length < 65536
  stop : next = record.rdataOffset + record.rdata.length

/-- A record that stands at an offset is read from it. -/
theorem RecordAt.parseRecordViewInner_eq {start : ℕ} (h : RecordAt packet start record next)
    (expectedOwner : Option DomainName) :
    ∃ matchesExpected, parseRecordViewInner packet start expectedOwner =
      .ok (record, matchesExpected, next - start) ∧ start < next := by
  obtain ⟨labels, pointers, hname, hpointers, hlen, hroot⟩ := h.owner
  have hlt := hname.lt
  obtain ⟨name, hlabels, hparse⟩ := DomainName.parse_of_wireNameAt hname hpointers hlen
  have hbound := h.fixed.bound (by simp [be16])
  have hwide := h.rdata_offset
  have hstop := h.stop
  simp only [length_append, length_be16, length_be32] at hbound
  have htype := h.fixed.left_of_append
  have hclsFrom := At.right_of_append _ h.fixed
  have httlFrom := At.right_of_append _ hclsFrom
  have hlengthFrom := At.right_of_append _ httlFrom
  have hrdata := At.right_of_append _ hlengthFrom
  simp only [length_be16, length_be32] at hclsFrom httlFrom hlengthFrom hrdata
  have hoffset : start + (record.rdataOffset - 10 - start) = record.rdataOffset - 10 := by omega
  have hcount : (UInt16.ofNat record.rdata.length).toNat = record.rdata.length := by
    rw [UInt16.toNat_ofNat', Nat.mod_eq_of_lt h.rdata_length]
  refine ⟨expectedOwner.elim true fun expected => decide (name.lowerLabels = expected.lowerLabels),
    ?_, by omega⟩
  unfold parseRecordViewInner
  rw [scanCompressedName_eq, hparse]
  simp only [Except.map, ofExcept_ok, ok_bind, hoffset]
  rw [if_neg (by omega), u16At_of_at htype, ok_bind, u16At_of_at hclsFrom.left_of_append, ok_bind,
    u32At_of_at (by simpa using httlFrom.left_of_append), ok_bind,
    u16At_of_at (by simpa using hlengthFrom.left_of_append), ok_bind, hcount,
    if_neg (by omega),
    Outcome.slice_of_at (by simpa using hrdata) (by omega) (by omega), ok_bind]
  have htail : record.rdataOffset - 10 + 10 = record.rdataOffset := by omega
  rw [htail, hlabels, ← hroot, hstop]

/-- Reading a record gives one that stands there or a format error. -/
theorem parseRecordViewInner_cases (packet : List UInt8) (start : ℕ)
    (expectedOwner : Option DomainName) : (∃ record next, RecordAt packet start record next) ∨
      parseRecordViewInner packet start expectedOwner = .error .formErr := by
  unfold parseRecordViewInner
  rw [scanCompressedName_eq]
  cases hparse : DomainName.parse packet start with
  | error e => exact Or.inr rfl
  | ok parsed =>
    obtain ⟨name, consumed⟩ := parsed
    obtain ⟨pointers, hpointers, hname, hlen⟩ := DomainName.wireNameAt_of_parse hparse
    simp only [Except.map, ofExcept_ok, ok_bind]
    by_cases hshort : packet.length < start + consumed + 10
    · exact Or.inr (if_pos hshort)
    · rw [if_neg hshort]
      obtain ⟨rrType, htype⟩ :=
        At.exists_be16 packet (show start + consumed + 2 ≤ packet.length by omega)
      obtain ⟨cls, hcls⟩ := At.exists_be16 packet
        (show start + consumed + 2 + 2 ≤ packet.length by omega)
      obtain ⟨ttl, httl⟩ := At.exists_be32 packet
        (show start + consumed + 4 + 4 ≤ packet.length by omega)
      obtain ⟨rdlength, hrdlength⟩ :=
        At.exists_be16 packet (show start + consumed + 8 + 2 ≤ packet.length by omega)
      rw [u16At_of_at htype, ok_bind, u16At_of_at hcls, ok_bind,
        u32At_of_at httl, ok_bind, u16At_of_at hrdlength, ok_bind]
      by_cases hlong : packet.length < start + consumed + 10 + rdlength.toNat
      · exact Or.inr (if_pos hlong)
      · left
        have hrdata : At packet (start + consumed + 10)
            ((packet.drop (start + consumed + 10)).take rdlength.toNat) := take_prefix _ _
        have hrdataLength : ((packet.drop (start + consumed + 10)).take rdlength.toNat).length =
            rdlength.toNat := by
          rw [length_take, length_drop]
          omega
        refine ⟨⟨decide (name.labels.length = 0), rrType, cls, ttl, start + consumed + 10,
          (packet.drop (start + consumed + 10)).take rdlength.toNat⟩, _,
          ⟨⟨name.labels, pointers, hname, hpointers, hlen, rfl⟩, ?_, by simp, ?_, rfl⟩⟩
        · rw [hrdataLength, UInt16.ofNat_toNat]
          exact htype.concat (hcls.concat (httl.concat (hrdlength.concat hrdata)))
        · rw [hrdataLength]
          exact rdlength.toNat_lt

theorem parseRecordView_of_recordAt (h : RecordAt packet offset record next) :
    parseRecordView packet offset = .ok (record, next - offset) ∧ offset < next := by
  obtain ⟨matchesExpected, hparse, hlt⟩ := h.parseRecordViewInner_eq none
  rw [parseRecordView, hparse]
  exact ⟨rfl, hlt⟩

theorem parseRecordView_of_none (h : ¬ ∃ record next, RecordAt packet offset record next) :
    parseRecordView packet offset = .error .formErr := by
  rcases parseRecordViewInner_cases packet offset none with hrec | hparse
  · exact absurd hrec h
  · rw [parseRecordView, hparse]
    rfl

/-- The records of an offset are determined by the packet. -/
theorem RecordAt.unique (h : RecordAt packet offset record next) {other : ℕ}
    {another : ParsedRecordView} (hother : RecordAt packet offset another other) :
    record = another ∧ next = other := by
  obtain ⟨hparse, hlt⟩ := parseRecordView_of_recordAt h
  obtain ⟨hotherParse, hotherLt⟩ := parseRecordView_of_recordAt hother
  obtain ⟨hrec, hnext⟩ := Prod.mk.inj (Outcome.ok.inj (hparse.symm.trans hotherParse))
  exact ⟨hrec, by omega⟩

/-- The header of a record is read as the record is. -/
theorem parseRecordHeader_eq (packet : List UInt8) (start : ℕ) :
    parseRecordHeader packet start = (do
      let (record, consumed) ← parseRecordView packet start
      .ok (record.rrType, consumed)) := by
  unfold parseRecordHeader parseRecordView parseRecordViewInner
  cases scanCompressedName packet start none with
  | error e => rfl
  | ok ownerScan =>
    simp only [ofExcept_ok, ok_bind]
    by_cases hshort : packet.length < start + ownerScan.consumed + 10
    · simp [hshort]
    · simp only [hshort, if_false]
      obtain ⟨rrType, htype⟩ := exists_u16At (ε := EdnsError)
        (show start + ownerScan.consumed + 2 ≤ packet.length by omega)
      obtain ⟨cls, hcls⟩ := exists_u16At (ε := EdnsError)
        (show start + ownerScan.consumed + 2 + 2 ≤ packet.length by omega)
      obtain ⟨ttl, httl⟩ := Outcome.exists_u32At (ε := EdnsError)
        (show start + ownerScan.consumed + 4 + 4 ≤ packet.length by omega)
      obtain ⟨rdlength, hrdlength⟩ := exists_u16At (ε := EdnsError)
        (show start + ownerScan.consumed + 8 + 2 ≤ packet.length by omega)
      simp only [htype, hcls, httl, hrdlength, ok_bind]
      by_cases hlong : packet.length < start + ownerScan.consumed + 10 + rdlength.toNat
      · simp [hlong]
      · simp only [hlong, if_false]
        rw [Outcome.slice_eq_ok ⟨by omega, by omega⟩]
        rfl

/-- Records one after the other. -/
def RecordsFrom (packet : List UInt8) : ℕ → List ParsedRecordView → ℕ → Prop
  | offset, [], stop => stop = offset
  | offset, record :: records, stop =>
    ∃ next, RecordAt packet offset record next ∧ RecordsFrom packet next records stop

/-- A section of so many records without an OPT. -/
def PlainSection (packet : List UInt8) (count offset stop : ℕ) : Prop :=
  ∃ records, records.length = count ∧ RecordsFrom packet offset records stop ∧
    ∀ record ∈ records, record.rrType ≠ opt

theorem skipRecords_of_recordAt (h : RecordAt packet offset record next) (count : ℕ) :
    skipRecords packet (count + 1) offset =
      if record.rrType = opt then .error .formErr else skipRecords packet count next := by
  obtain ⟨hparse, hlt⟩ := parseRecordView_of_recordAt h
  rw [skipRecords, parseRecordHeader_eq, hparse]
  simp only [ok_bind]
  rw [show offset + (next - offset) = next by omega]

theorem plainSection_succ_iff (h : RecordAt packet offset record next) (count stop : ℕ) :
    PlainSection packet (count + 1) offset stop ↔ record.rrType ≠ opt ∧
      PlainSection packet count next stop := by
  constructor
  · rintro ⟨records, hcount, hrecs, hplain⟩
    cases records with
    | nil => simp at hcount
    | cons first records =>
      obtain ⟨middle, hfirst, hrest⟩ := hrecs
      obtain ⟨rfl, rfl⟩ := h.unique hfirst
      exact ⟨hplain record (by simp), records, by simpa using hcount, hrest,
        fun other hother => hplain other (by simp [hother])⟩
  · rintro ⟨htype, records, hcount, hrecs, hplain⟩
    refine ⟨record :: records, by simp [hcount], ⟨next, h, hrecs⟩, ?_⟩
    intro other hother
    rcases mem_cons.mp hother with rfl | hother
    · exact htype
    · exact hplain other hother

/-- The loop over a section ends behind it, or there is no such section. -/
theorem skipRecords_cases (packet : List UInt8) (count offset : ℕ) :
    (∃ stop, skipRecords packet count offset = .ok stop ∧
        ∀ other, PlainSection packet count offset other ↔ other = stop) ∨
      skipRecords packet count offset = .error .formErr ∧
      ∀ other, ¬ PlainSection packet count offset other := by
  induction count generalizing offset with
  | zero =>
    refine Or.inl ⟨offset, rfl, fun other => ⟨?_, ?_⟩⟩
    · rintro ⟨records, hcount, hrecs, -⟩
      obtain rfl := length_eq_zero_iff.mp hcount
      exact hrecs
    · rintro rfl
      exact ⟨[], rfl, rfl, by simp⟩
  | succ count ih =>
    by_cases hrec : ∃ record next, RecordAt packet offset record next
    · obtain ⟨record, next, hrec⟩ := hrec
      simp only [plainSection_succ_iff hrec, skipRecords_of_recordAt hrec]
      by_cases hopt : record.rrType = opt
      · exact Or.inr (by simp [hopt])
      · simp only [hopt, if_false, ne_eq, not_false_eq_true, true_and]
        exact ih next
    · refine Or.inr ⟨by rw [skipRecords, parseRecordHeader_eq,
        parseRecordView_of_none hrec]; rfl, ?_⟩
      rintro other ⟨records, hcount, hrecs, -⟩
      cases records with
      | nil => simp at hcount
      | cons first records =>
        obtain ⟨middle, hfirst, -⟩ := hrecs
        exact hrec ⟨first, middle, hfirst⟩

end RequestSections

end BoronDns
