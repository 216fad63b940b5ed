import BoronDns.Edns
import BoronDns.RecordDecoding

/-!
A whole response message: header, question, the records of the three sections
and the OPT record. `MessageReads` states what a reader finds in the bytes; the
builder's output satisfies it for every parsed question and every list of well
formed records.
-/

namespace BoronDns

open Bytes List

variable {question : Question} {answers additionals : List ZoneImageWireRecord}

structure Header where
  id : UInt16
  flags : UInt16

def Rcode.value : Rcode → UInt16
  | noError => 0
  | formErr => 1
  | servFail => 2
  | nxDomain => 3
  | notImp => 4
  | refused => 5
  | yxDomain => 6
  | notAuth => 9
  | badCookie => 23

variable (header : Header) (rcode : Rcode)

def Rcode.bits : UInt16 := rcode.value &&& 0x000f

def Rcode.responseFlagBits (authoritative : Bool) : UInt16 :=
  (if authoritative then 0x0400 else 0) ||| rcode.bits

def Header.responseFlagsFromPlanBits (planResponseFlagBits : UInt16) (truncated : Bool) : UInt16 :=
  let opcode := header.flags &&& 0x7800
  let rd := header.flags &&& 0x0100
  let tc := if truncated then 0x0200 else 0
  0x8000 ||| opcode ||| tc ||| rd ||| planResponseFlagBits

variable (authoritative truncated : Bool)

def Header.responseFlags : UInt16 :=
  header.responseFlagsFromPlanBits (rcode.responseFlagBits authoritative) truncated

theorem or_and_mask (left right mask : UInt16) :
    (left ||| right) &&& mask = (left &&& mask) ||| (right &&& mask) := by
  apply UInt16.toNat_inj.mp
  simp [Nat.and_or_distrib_right]

theorem responseFlags_and {mask : UInt16} (bits : UInt16) (truncated : Bool)
    (hopcode : (0x7800 : UInt16) &&& mask = 0) (hrecursion : (0x0100 : UInt16) &&& mask = 0)
    (hresponse : (0x8000 : UInt16) &&& mask = 0) :
    header.responseFlagsFromPlanBits bits truncated &&& mask =
      ((if truncated then 0x0200 else 0) &&& mask) ||| (bits &&& mask) := by
  simp only [Header.responseFlagsFromPlanBits, or_and_mask, UInt16.and_assoc, hopcode, hrecursion,
    hresponse]
  simp

theorem responseFlags_tc :
    header.responseFlagsFromPlanBits (rcode.responseFlagBits authoritative) truncated &&& 0x0200 ≠ 0
      ↔ truncated = true := by
  rw [responseFlags_and header _ truncated (by decide) (by decide) (by decide)]
  cases rcode <;> cases authoritative <;> cases truncated <;> decide

theorem responseFlags_aa (bits : UInt16) (truncated : Bool) :
    header.responseFlagsFromPlanBits bits truncated &&& 0x0400 = bits &&& 0x0400 := by
  have htc : ((if truncated then 0x0200 else 0 : UInt16) &&& 0x0400) = 0 := by
    cases truncated <;> decide
  rw [responseFlags_and header bits truncated (by decide) (by decide) (by decide), htc]
  simp

structure Question where
  qname : DomainName
  qtype : UInt16
  qclass : UInt16
  qnameWireLen : ℕ
  qtypeQclassWire : List UInt8
  qnameAsciiLowercase : Bool
  deriving DecidableEq

def Question.parse (packet : List UInt8) : Except DnsParseError Question :=
  match DomainName.parseWithAsciiLowercase packet dnsHeaderLen with
  | .error error => .error error
  | .ok (qname, qnameLen, qnameAsciiLowercase) =>
    let qtypeOffset := dnsHeaderLen + qnameLen
    if packet.length < qtypeOffset + 4 then
      .error .formErr
    else
      let wire := (packet.drop qtypeOffset).take 4
      .ok
        { qname
          qtype := fromBe16 (wire.getD 0 0) (wire.getD 1 0)
          qclass := fromBe16 (wire.getD 2 0) (wire.getD 3 0)
          qnameWireLen := qnameLen
          qtypeQclassWire := wire
          qnameAsciiLowercase }

def encodeQuestion (question : Question) (response : List UInt8) : List UInt8 :=
  response ++ (labelsWire question.qname.labels ++ [0]) ++ question.qtypeQclassWire

structure ZoneImageEdnsSizing where
  additionalCount : UInt16
  baseShape : Option EdnsResponseBaseShape

structure ZoneImageResponseSizing where
  udpCeiling : ℕ
  edns : ZoneImageEdnsSizing

variable (response : List UInt8) (metadata : RequestMetadata) (options : AnswerOptions)

def zoneImageEdnsSizing : ZoneImageEdnsSizing :=
  match metadata.edns with
  | none => ⟨0, none⟩
  | some edns => ⟨1, some (ednsResponseBaseShape edns options metadata.extendedDnsError)⟩

variable (udpCeiling : ℕ)

def zoneImageResponseSizing (metadata : RequestMetadata)
    (options : AnswerOptions) : ZoneImageResponseSizing :=
  ⟨udpCeiling, zoneImageEdnsSizing metadata options⟩

def ZoneImageResponseSizing.withEdnsSizing (sizing : ZoneImageResponseSizing)
    (edns : ZoneImageEdnsSizing) : ZoneImageResponseSizing :=
  { sizing with edns }

/-- The sizing of a request with EDNS always carries the shape of its OPT. -/
def appendZoneImageResponseEdns (sizing : ZoneImageEdnsSizing) : List UInt8 :=
  match metadata.edns, sizing.baseShape with
  | some edns, some base =>
    encodeOptRecordWithBaseShape edns metadata.extendedRcode options udpCeiling base response
  | _, _ => response

def sectionCountHeaderBytes (answerCount authorityCount additionalCount : UInt16) : List UInt8 :=
  be16 answerCount ++ be16 authorityCount ++ be16 additionalCount

def zoneImageResponsePrefix (responseFlagBits : UInt16) (truncated : Bool)
    (sectionCountHeaderBytes : List UInt8) : List UInt8 :=
  be16 header.id ++ be16 (header.responseFlagsFromPlanBits responseFlagBits truncated) ++ be16 1 ++
    sectionCountHeaderBytes

/-- The part shared by every builder of a response: the question seeds the name
compressor, the records follow, and the OPT record comes last. -/
def zoneImageResponseBytes (question : Question) (responseFlagBits : UInt16) (truncated : Bool)
    (sectionCountHeaderBytes : List UInt8) (records : List ZoneImageWireRecord)
    (metadata : RequestMetadata) (options : AnswerOptions) (sizing : ZoneImageResponseSizing) :
    List UInt8 :=
  let response := zoneImageResponsePrefix header responseFlagBits truncated sectionCountHeaderBytes
  let response := encodeQuestion question response
  let compressor := WireNameCompressor.empty.registerNameLabelsAtOffset question.qname.labels
    question.qnameWireLen question.qnameAsciiLowercase dnsHeaderLen
  let (response, _) := encodeZoneImageWireRecords records response compressor
  appendZoneImageResponseEdns response metadata options sizing.udpCeiling sizing.edns

structure Question.Parsed (question : Question) : Prop where
  qname_fits : question.qname.wireLen ≤ 255
  lowercase_truthful : question.qnameAsciiLowercase = true →
    labelsLowercase question.qname.labels = true
  wire_eq : question.qtypeQclassWire = be16 question.qtype ++ be16 question.qclass

theorem Question.parse_parsed {packet : List UInt8} (h : Question.parse packet = .ok question) :
    question.Parsed := by
  unfold Question.parse at h
  split at h
  · simp at h
  rename_i qname qnameLen lowercase hname
  dsimp only at h
  split at h
  · simp at h
  obtain rfl := Except.ok.inj h
  obtain ⟨hlower, -, -, -, hfits⟩ := DomainName.parseWithAsciiLowercase_spec hname
  refine ⟨qname.length_labelsWire_add_one ▸ hfits, fun hflag => hlower ▸ hflag, ?_⟩
  have hwire : ((packet.drop (dnsHeaderLen + qnameLen)).take 4).length = 4 := by
    rw [length_take, length_drop]
    omega
  obtain ⟨b0, b1, b2, b3, hbytes⟩ := length_eq_four.mp hwire
  simp [hbytes, be16_fromBe16]

/-- The bytes behind the records: the OPT record of a request with EDNS. -/
def OptReads (opt : List UInt8) : Prop :=
  if metadata.edns.isSome then
    ∃ fixed rdata : List UInt8, fixed.length = 6 ∧
      opt = [0, 0, 41] ++ fixed ++ be16 (UInt16.ofNat rdata.length) ++ rdata
  else
    opt = []

/-- What a reader finds in a response. -/
structure MessageReads (bytes : List UInt8) (id flags : UInt16) (question : Question)
    (metadata : RequestMetadata) (answers authorities additionals : List ZoneImageWireRecord) :
    Prop where
  counts_fit : answers.length ≤ 65535 ∧ authorities.length ≤ 65535 ∧
    additionals.length + (if metadata.edns.isSome then 1 else 0) ≤ 65535
  header : At bytes 0 (be16 id ++ be16 flags ++ be16 1 ++
    sectionCountHeaderBytes (UInt16.ofNat answers.length) (UInt16.ofNat authorities.length)
      (UInt16.ofNat (additionals.length + if metadata.edns.isSome then 1 else 0)))
  body : ∃ (qnameLen recordsEnd : ℕ), DomainName.parse bytes dnsHeaderLen =
    .ok (question.qname, qnameLen) ∧
    At bytes (dnsHeaderLen + qnameLen) (be16 question.qtype ++ be16 question.qclass) ∧
    RecordsAt bytes (dnsHeaderLen + qnameLen + 4) (answers ++ authorities ++ additionals)
      recordsEnd ∧
    OptReads metadata (bytes.drop recordsEnd) ∧ recordsEnd ≤ bytes.length

/-- Only an OPT record is added behind the records, and only for EDNS. -/
theorem appendZoneImageResponseEdns_eq : ∃ opt : List UInt8, OptReads metadata opt ∧
      appendZoneImageResponseEdns response metadata options udpCeiling
        (zoneImageEdnsSizing metadata options) = response ++ opt := by
  unfold OptReads appendZoneImageResponseEdns zoneImageEdnsSizing
  cases metadata.edns with
  | none => exact ⟨[], rfl, by simp⟩
  | some edns =>
    simp only [Option.isSome_some, if_true, encodeOptRecordWithBaseShape, append_assoc]
    rw [← length_ednsResponseOptions]
    generalize ednsResponseOptions edns options _ = rdata
    generalize (metadata.extendedRcode >>> 4).toUInt32 <<< 24 ||| _ = ttl
    refine ⟨_, ⟨be16 options.maxUdpPayload ++ be32 ttl, rdata, rfl, ?_⟩, rfl⟩
    rw [append_assoc]

/-- The question a response repeats is read back as it was. -/
theorem Question.Parsed.parse_encoded (h : question.Parsed) (before more : List UInt8) :
    DomainName.parse (encodeQuestion question before ++ more) before.length =
      .ok (question.qname, (labelsWire question.qname.labels).length + 1) := by
  have hat : At (encodeQuestion question before ++ more) before.length
      (labelsWire question.qname.labels ++ [0]) := by
    rw [encodeQuestion, append_assoc, append_assoc]
    exact At.at_end_append _ _ _
  have hname := WireNameAt.prepend question.qname.labels question.qname.labels_valid
    hat.left_of_append (.root (hat.right_of_append _))
  rw [append_nil] at hname
  obtain ⟨name, hlabels, hparse⟩ := DomainName.parse_of_wireNameAt hname (by decide)
    (by rw [question.qname.length_labelsWire_add_one]; exact h.qname_fits)
  rw [hparse, DomainName.ext hlabels]
  congr 2
  omega

theorem Question.Parsed.length_encoded (h : question.Parsed) {start : List UInt8}
    (hstart : start.length = dnsHeaderLen) :
    (encodeQuestion question start).length = dnsHeaderLen +
      ((labelsWire question.qname.labels).length + 1) + 4 := by
  rw [encodeQuestion, h.wire_eq]
  simp only [length_append, hstart, length_be16, length_singleton]

variable {authorities : List ZoneImageWireRecord}

/-- Whatever was written behind the question, if it reads as the records of the
three sections then the message with its OPT record reads as a response. -/
theorem messageReads_of_chunk (hquest : question.Parsed) (responseFlagBits : UInt16)
    (truncated : Bool) (metadata : RequestMetadata) (options : AnswerOptions) (udpCeiling : ℕ)
    (hcounts : answers.length ≤ 65535 ∧ authorities.length ≤ 65535 ∧
      additionals.length + (if metadata.edns.isSome then 1 else 0) ≤ 65535)
    {start chunk : List UInt8} (hpre : zoneImageResponsePrefix header responseFlagBits truncated
      (sectionCountHeaderBytes (UInt16.ofNat answers.length) (UInt16.ofNat authorities.length)
        (UInt16.ofNat (additionals.length + if metadata.edns.isSome then 1 else 0))) = start)
    (hread : RecordsAt (encodeQuestion question start ++ chunk)
      (encodeQuestion question start).length (answers ++ authorities ++ additionals)
      (encodeQuestion question start ++ chunk).length) : MessageReads
      (appendZoneImageResponseEdns (encodeQuestion question start ++ chunk) metadata options
        udpCeiling (zoneImageEdnsSizing metadata options))
      header.id (header.responseFlagsFromPlanBits responseFlagBits truncated) question metadata
      answers authorities additionals := by
  have hstart : start.length = dnsHeaderLen := by
    rw [← hpre]
    rfl
  obtain ⟨opt, hopt, happend⟩ := appendZoneImageResponseEdns_eq
    (encodeQuestion question start ++ chunk) metadata options udpCeiling
  have hqlen := hquest.length_encoded hstart
  rw [happend]
  refine ⟨hcounts, ?_, (labelsWire question.qname.labels).length + 1,
    (encodeQuestion question start ++ chunk).length, ?_, ?_, ?_, ?_, ?_⟩
  · have hat : At (encodeQuestion question start ++ chunk ++ opt) 0 start := by
      simp only [At, encodeQuestion, drop_zero, append_assoc]
      exact prefix_append _ _
    rw [zoneImageResponsePrefix] at hpre
    rw [hpre]
    exact hat
  · rw [append_assoc, ← hstart]
    exact hquest.parse_encoded start (chunk ++ opt)
  · have hat := At.at_end_append (start ++ (labelsWire question.qname.labels ++ [0]))
      question.qtypeQclassWire (chunk ++ opt)
    simpa [encodeQuestion, hstart, hquest.wire_eq, append_assoc] using hat
  · rw [← hqlen]
    exact hread.append opt
  · rw [drop_left]
    exact hopt
  · simp

/-- A response reads back as the question and the records it was built from. -/
theorem zoneImageResponseBytes_reads (hquest : question.Parsed) (responseFlagBits : UInt16)
    (truncated : Bool) (hrecs : ∀ record ∈ answers ++ authorities ++ additionals,
      record.WellFormed) (metadata : RequestMetadata)
    (options : AnswerOptions) (udpCeiling : ℕ) (hcounts : answers.length ≤ 65535 ∧
      authorities.length ≤ 65535 ∧
      additionals.length + (if metadata.edns.isSome then 1 else 0) ≤ 65535) : MessageReads
      (zoneImageResponseBytes header question responseFlagBits truncated
        (sectionCountHeaderBytes (UInt16.ofNat answers.length) (UInt16.ofNat authorities.length)
          (UInt16.ofNat (additionals.length + if metadata.edns.isSome then 1 else 0)))
        (answers ++ authorities ++ additionals) metadata options
          (zoneImageResponseSizing udpCeiling metadata options))
      header.id (header.responseFlagsFromPlanBits responseFlagBits truncated) question metadata
      answers authorities additionals := by
  unfold zoneImageResponseBytes
  generalize hpre : zoneImageResponsePrefix header responseFlagBits truncated _ = start
  have hstart : start.length = dnsHeaderLen := by
    rw [← hpre]
    rfl
  have hsound : WireNameCompressor.empty.Sound (encodeQuestion question start) := by
    intro entry hentry
    simp [WireNameCompressor.empty] at hentry
  have hname : At (encodeQuestion question start) dnsHeaderLen
      (labelsWire question.qname.labels ++ [0]) := by
    rw [← hstart, encodeQuestion, append_assoc]
    exact At.at_end_append _ _ _
  have hseeded := hsound.registerNameLabelsAtOffset question.qname.labels_valid
    hquest.lowercase_truthful question.qnameWireLen dnsHeaderLen hname
  obtain ⟨chunk, hencoded, -, hread⟩ := encodeRecords_sound hseeded hrecs
  have hmessage := messageReads_of_chunk header hquest responseFlagBits truncated metadata
    options udpCeiling hcounts hpre hread
  rw [← hencoded] at hmessage
  exact hmessage

end BoronDns
