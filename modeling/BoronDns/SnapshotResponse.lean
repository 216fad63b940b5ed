import BoronDns.RecordWriter
import BoronDns.ResponseMessage
import Mathlib.Data.List.DropRight

/-!
Responses that are built from the records of a lookup in a zone snapshot. The
section counts are cast to sixteen bits without a check. A datagram that is too
long is built again without its extended error and then with fewer and fewer
records: the additional RRsets go first, then the authority records other than
the SOA, then the answers and what is left of the authorities. As long as the
sections of a stream response can be counted, every message reads back as
the records it was built from, and a datagram that lacks an answer or an
authority record says that it is truncated.
-/

namespace BoronDns

open Bytes List RecordType

variable (edns : EdnsMetadata) (extendedRcode : UInt16)

def encodeOptRecord (extendedDnsError : Option ExtendedDnsError)
    (options : AnswerOptions) (udpCeiling : ℕ) (response : List UInt8) : List UInt8 :=
  encodeOptRecordWithBaseShape edns extendedRcode options udpCeiling
    (ednsResponseBaseShape edns options extendedDnsError) response

variable (header : Header) (rcode : Rcode) (authoritative truncated : Bool)
  (question : Option Question) (metadata : RequestMetadata) (options : AnswerOptions)

/-- The twelve octets in front of every response. -/
def responseHeaderBytes (answerCount authorityCount additionalCount : UInt16) : List UInt8 :=
  be16 header.id ++ be16 (header.responseFlags rcode authoritative truncated) ++
    be16 (if question.isSome then 1 else 0) ++
    sectionCountHeaderBytes answerCount authorityCount additionalCount

variable (records : List ResourceRecord)

/-- The question, which seeds the name compressor, and the records behind it. -/
def encodeQuestionAndRecords (response : List UInt8) : List UInt8 :=
  match question with
  | some question =>
    let compressor := NameCompressor.empty.registerNameAtOffset question.qname dnsHeaderLen
    (encodeRecords records (encodeQuestion question response) compressor).1
  | none => (encodeRecords records response NameCompressor.empty).1

def buildResponseInner (answers authorities additionals : List ResourceRecord)
    (metadata : RequestMetadata) (options : AnswerOptions) : List UInt8 :=
  let response := responseHeaderBytes header rcode authoritative truncated question
    (UInt16.ofNat answers.length) (UInt16.ofNat authorities.length)
    (UInt16.ofNat (additionals.length + if metadata.edns.isSome then 1 else 0))
  let response :=
    encodeQuestionAndRecords question (answers ++ authorities ++ additionals) response
  metadata.edns.elim response fun edns =>
    encodeOptRecord edns metadata.extendedRcode metadata.extendedDnsError options
      (metadata.udpCeiling options) response

/-- `build_empty_response_inner`, also for a message without a question. -/
def emptyResponseBytes : List UInt8 :=
  let ednsSizing := zoneImageEdnsSizing metadata options
  let response := responseHeaderBytes header rcode authoritative truncated question 0 0
    ednsSizing.additionalCount
  let response := question.elim response fun question => encodeQuestion question response
  appendZoneImageResponseEdns response metadata options (metadata.udpCeiling options) ednsSizing

/-- A datagram that is too long without any record is sent with the truncation
bit. -/
def buildEmptyResponse : List UInt8 :=
  let response := emptyResponseBytes header rcode authoritative false question metadata options
  if options.transport = .udp ∧ metadata.udpCeiling options < response.length then
    emptyResponseBytes header rcode authoritative true question metadata options
  else
    response

def sameRecordRrset (left right : ResourceRecord) : Bool :=
  left.owner == right.owner && left.rrType == right.rrType && left.cls == right.cls

def popLastResourceRecordRrset : List ResourceRecord :=
  match records.getLast? with
  | none => records
  | some last => records.rdropWhile fun record => sameRecordRrset record last

def removeLastNonSoa (authorities : List ResourceRecord) : Option (List ResourceRecord) :=
  if authorities.any fun record => record.rrType != soa then
    some (authorities.reverse.eraseP fun record => record.rrType != soa).reverse
  else
    none

structure KeptRecords where
  answers : List ResourceRecord
  authorities : List ResourceRecord
  additionals : List ResourceRecord
  truncated : Bool

namespace KeptRecords

def size (kept : KeptRecords) : ℕ :=
  kept.answers.length + kept.authorities.length + kept.additionals.length

/-- One round of the loop: what is kept next, or `none` when nothing was left. -/
def remove (requiredReferralGlue : Bool) (kept : KeptRecords) : Option KeptRecords :=
  if kept.additionals ≠ [] then
    some { kept with
      additionals := popLastResourceRecordRrset kept.additionals
      truncated := kept.truncated || requiredReferralGlue }
  else
    match removeLastNonSoa kept.authorities with
    | some authorities => some { kept with authorities, truncated := true }
    | none =>
      if kept.answers ≠ [] then
        some { kept with answers := kept.answers.dropLast, truncated := true }
      else if kept.authorities ≠ [] then
        some { kept with authorities := kept.authorities.dropLast, truncated := true }
      else
        none

end KeptRecords

theorem popLastResourceRecordRrset_prefix : popLastResourceRecordRrset records <+: records := by
  unfold popLastResourceRecordRrset
  split
  · exact prefix_rfl
  · exact rdropWhile_prefix _ _

theorem length_popLastResourceRecordRrset_lt {records : List ResourceRecord} (h : records ≠ []) :
    (popLastResourceRecordRrset records).length < records.length := by
  obtain ⟨front, last, rfl⟩ := eq_nil_or_concat' records |>.resolve_left h
  have hsame : sameRecordRrset last last = true := by simp [sameRecordRrset]
  rw [popLastResourceRecordRrset, List.getLast?_concat]
  simp only [rdropWhile_concat, hsame, if_true, length_append, length_singleton]
  exact Nat.lt_succ_of_le <| IsPrefix.length_le <| rdropWhile_prefix _ front

theorem removeLastNonSoa_spec {authorities kept : List ResourceRecord}
    (h : removeLastNonSoa authorities = some kept) :
    kept.Sublist authorities ∧ kept.length < authorities.length := by
  unfold removeLastNonSoa at h
  split at h
  next hany =>
    obtain rfl := Option.some.inj h
    have hreverse : (authorities.reverse.any fun record => record.rrType != soa) = true := by
      rw [any_reverse]
      exact hany
    obtain ⟨record, hmem, hother⟩ := any_eq_true.mp hreverse
    have hlen := length_eraseP_of_mem
      (p := fun record => record.rrType != soa) hmem hother
    have hpos := length_pos_of_mem hmem
    refine ⟨?_, ?_⟩
    · rw [← reverse_sublist, reverse_reverse]
      exact eraseP_sublist
    · rw [length_reverse, hlen]
      rw [length_reverse] at hpos ⊢
      omega
  · simp at h

variable {kept : KeptRecords} {requiredReferralGlue : Bool} {next : KeptRecords}

/-- What one round of removals does. -/
theorem KeptRecords.remove_spec
    (h : kept.remove requiredReferralGlue = some next) :
    next.size < kept.size ∧ next.answers <+: kept.answers ∧
      next.authorities.Sublist kept.authorities ∧ next.additionals <+: kept.additionals ∧
      (next.truncated = false → next.answers = kept.answers ∧
        next.authorities = kept.authorities ∧ kept.truncated = false) := by
  unfold KeptRecords.remove at h
  unfold KeptRecords.size
  split at h
  next hadds =>
    obtain rfl := Option.some.inj h
    have hless := length_popLastResourceRecordRrset_lt hadds
    refine ⟨by dsimp only; omega, prefix_rfl, List.Sublist.refl _,
      popLastResourceRecordRrset_prefix _, ?_⟩
    intro htruncated
    exact ⟨rfl, rfl, (Bool.or_eq_false_iff.mp htruncated).1⟩
  split at h
  next authorities hremoved =>
    obtain rfl := Option.some.inj h
    obtain ⟨hsublist, hless⟩ := removeLastNonSoa_spec hremoved
    exact ⟨by dsimp only; omega, prefix_rfl, hsublist, prefix_rfl, by simp⟩
  split at h
  next hans =>
    obtain rfl := Option.some.inj h
    have hpos := length_pos_iff.mpr hans
    refine ⟨?_, dropLast_prefix _, List.Sublist.refl _, prefix_rfl, by simp⟩
    simp only [length_dropLast]
    omega
  split at h
  next hauths =>
    obtain rfl := Option.some.inj h
    have hpos := length_pos_iff.mpr hauths
    refine ⟨?_, prefix_rfl, dropLast_sublist _, prefix_rfl, by simp⟩
    simp only [length_dropLast]
    omega
  · simp at h

theorem KeptRecords.remove_eq_none (h : kept.remove requiredReferralGlue = none) :
    kept.answers = [] ∧ kept.authorities = [] ∧ kept.additionals = [] := by
  unfold KeptRecords.remove at h
  by_cases hadds : kept.additionals = []
  · rw [if_neg (by simpa using hadds)] at h
    split at h
    · simp at h
    · by_cases hans : kept.answers = []
      · by_cases hauths : kept.authorities = []
        · exact ⟨hans, hauths, hadds⟩
        · simp [hans, hauths] at h
      · simp [hans] at h
  · simp [hadds] at h

/-- The loop of `build_truncated_response`. -/
def truncationLoop (build : KeptRecords → List UInt8) (ceiling : ℕ) (requiredReferralGlue : Bool)
    (kept : KeptRecords) : List UInt8 :=
  let response := build kept
  if response.length ≤ ceiling then
    response
  else
    match _hstep : kept.remove requiredReferralGlue with
    | none => response
    | some next => truncationLoop build ceiling requiredReferralGlue next
termination_by kept.size
decreasing_by exact (KeptRecords.remove_spec _hstep).1

def buildTruncatedResponse (answers authorities additionals : List ResourceRecord)
    (metadata : RequestMetadata) (options : AnswerOptions) : List UInt8 :=
  let ceiling := metadata.udpCeiling options
  let requiredReferralGlue :=
    !authoritative && authorities.any fun record => record.rrType == ns
  let build := fun (metadata : RequestMetadata) (kept : KeptRecords) =>
    buildResponseInner header rcode authoritative kept.truncated question kept.answers
      kept.authorities kept.additionals metadata options
  let start : KeptRecords := ⟨answers, authorities, additionals, false⟩
  if metadata.extendedDnsError.isSome then
    let metadata := metadata.withoutExtendedDnsError
    let response := build metadata start
    if response.length ≤ ceiling then
      response
    else
      truncationLoop (build metadata) ceiling requiredReferralGlue start
  else
    truncationLoop (build metadata) ceiling requiredReferralGlue start

def buildResponse (answers authorities additionals : List ResourceRecord)
    (metadata : RequestMetadata) (options : AnswerOptions) : List UInt8 :=
  if answers.isEmpty && authorities.isEmpty && additionals.isEmpty then
    buildEmptyResponse header rcode authoritative question metadata options
  else
    let response := buildResponseInner header rcode authoritative false question answers
      authorities additionals metadata options
    if options.transport = .udp ∧ metadata.udpCeiling options < response.length then
      buildTruncatedResponse header rcode authoritative question answers authorities additionals
        metadata options
    else
      response

/-- The part of the given records that a response may be built from. -/
structure KeptRecords.PartOf (kept : KeptRecords)
    (answers authorities additionals : List ResourceRecord) : Prop where
  answers_first : kept.answers <+: answers
  authorities_sublist : kept.authorities.Sublist authorities
  additionals_first : kept.additionals <+: additionals
  complete : kept.truncated = false → kept.answers = answers ∧ kept.authorities = authorities

theorem KeptRecords.PartOf.remove
    {answers authorities additionals : List ResourceRecord}
    (h : kept.PartOf answers authorities additionals)
    (hnext : kept.remove requiredReferralGlue = some next) :
    next.PartOf answers authorities additionals := by
  obtain ⟨-, hans, hauths, hadds, hcomplete⟩ := KeptRecords.remove_spec hnext
  refine ⟨hans.trans h.answers_first, hauths.trans h.authorities_sublist,
    hadds.trans h.additionals_first, ?_⟩
  intro htruncated
  obtain ⟨hsameAnswers, hsameAuthorities, hbefore⟩ := hcomplete htruncated
  obtain ⟨hall, hallAuthorities⟩ := h.complete hbefore
  exact ⟨hsameAnswers.trans hall, hsameAuthorities.trans hallAuthorities⟩

/-- What the loop sends was built from a part of the records that fits, or from
no record at all. -/
theorem truncationLoop_spec (build : KeptRecords → List UInt8) (ceiling : ℕ)
    (requiredReferralGlue : Bool) {answers authorities additionals : List ResourceRecord}
    (h : kept.PartOf answers authorities additionals) :
    ∃ final : KeptRecords, final.PartOf answers authorities additionals ∧
      truncationLoop build ceiling requiredReferralGlue kept = build final ∧
      ((build final).length ≤ ceiling ∨ final.answers = [] ∧ final.authorities = [] ∧
        final.additionals = []) := by
  induction hsize : kept.size using Nat.strong_induction_on generalizing kept with
  | _ size ih =>
    rw [truncationLoop]
    split
    next hfits => exact ⟨kept, h, rfl, Or.inl hfits⟩
    split
    next hstep => exact ⟨kept, h, rfl, Or.inr (KeptRecords.remove_eq_none hstep)⟩
    next next hstep =>
      exact ih next.size (hsize ▸ (KeptRecords.remove_spec hstep).1) (h.remove hstep) rfl

/-- The question of a message, behind which the records start. -/
def QuestionReads (bytes : List UInt8) (question : Option Question) (recordsStart : ℕ) : Prop :=
  match question with
  | none => recordsStart = dnsHeaderLen
  | some question =>
    ∃ qnameLen, DomainName.parse bytes dnsHeaderLen = .ok (question.qname, qnameLen) ∧
      At bytes (dnsHeaderLen + qnameLen) (be16 question.qtype ++ be16 question.qclass) ∧
      recordsStart = dnsHeaderLen + qnameLen + 4

/-- What stands in a message: its header, in which a section's count is taken
modulo 65536, its question, the records and the OPT record, whose data is no
longer than its length field can say. -/
structure ResponseHolds (bytes : List UInt8) (id flags : UInt16) (question : Option Question)
    (metadata : RequestMetadata) (answers authorities additionals : List ResourceRecord) :
    Prop where
  header : At bytes 0 (be16 id ++ be16 flags ++ be16 (if question.isSome then 1 else 0) ++
    sectionCountHeaderBytes (UInt16.ofNat answers.length) (UInt16.ofNat authorities.length)
      (UInt16.ofNat (additionals.length + if metadata.edns.isSome then 1 else 0)))
  body : ∃ recordsStart recordsEnd : ℕ, QuestionReads bytes question recordsStart ∧
    RecordsReadAt bytes recordsStart (answers ++ authorities ++ additionals) recordsEnd ∧
    OptReads metadata (bytes.drop recordsEnd) ∧ recordsEnd ≤ bytes.length ∧
    bytes.length ≤ recordsEnd + 11 + 65535

/-- A message whose counts say how many records it holds. -/
structure ResponseReads (bytes : List UInt8) (id flags : UInt16) (question : Option Question)
    (metadata : RequestMetadata) (answers authorities additionals : List ResourceRecord) : Prop
    extends ResponseHolds bytes id flags question metadata answers authorities additionals where
  counts_fit : answers.length ≤ 65535 ∧ authorities.length ≤ 65535 ∧
    additionals.length + (if metadata.edns.isSome then 1 else 0) ≤ 65535

/-- The options that the configuration accepts leave room for the OPT record: it
allows an identifier of 255 octets and no padding. -/
def AnswerOptions.OptFits : Prop :=
  options.nsid.length + options.ednsPaddingBlockSize.toNat + 48 ≤ 65535

instance (options : AnswerOptions) : Decidable options.OptFits :=
  inferInstanceAs (Decidable (_ ≤ _))

theorem ednsRdataLen_le
    (extendedDnsError : Option ExtendedDnsError) (responseLen udpCeiling : ℕ) :
    (ednsResponseOptionsShapeFromBase edns options
      (ednsResponseBaseShape edns options extendedDnsError) responseLen udpCeiling).rdataLen ≤
      options.nsid.length + options.ednsPaddingBlockSize.toNat + 48 := by
  have hbase : (ednsResponseBaseShape edns options extendedDnsError).rdataLen ≤
      options.nsid.length + 44 := by
    unfold ednsResponseBaseShape
    dsimp only
    repeat' split
    all_goals omega
  unfold ednsResponseOptionsShapeFromBase
  split
  next hpadded =>
    have hless := Nat.mod_lt (options.ednsPaddingBlockSize.toNat - (responseLen + 11 +
      (ednsResponseBaseShape edns options extendedDnsError).rdataLen + 4) %
        options.ednsPaddingBlockSize.toNat) hpadded.2.2
    dsimp only
    split
    · dsimp only
      omega
    · dsimp only
      omega
  · dsimp only
    omega

/-- Only an OPT record is added behind the records, and only for EDNS. -/
theorem encodeOptRecord_eq (extendedDnsError : Option ExtendedDnsError)
    (options : AnswerOptions) (udpCeiling : ℕ) (response : List UInt8) :
    ∃ fixed rdata : List UInt8, fixed.length = 6 ∧
      rdata.length ≤ options.nsid.length + options.ednsPaddingBlockSize.toNat + 48 ∧
      encodeOptRecord edns extendedRcode extendedDnsError options udpCeiling response =
        response ++ ([0, 0, 41] ++ fixed ++ be16 (UInt16.ofNat rdata.length) ++ rdata) := by
  unfold encodeOptRecord encodeOptRecordWithBaseShape
  have hsize := ednsRdataLen_le edns options extendedDnsError response.length udpCeiling
  have hlen := length_ednsResponseOptions edns options extendedDnsError response.length
    udpCeiling
  dsimp only
  rw [← hlen]
  generalize (extendedRcode >>> 4).toUInt32 <<< 24 ||| _ = ttl
  refine ⟨be16 options.maxUdpPayload ++ be32 ttl, _, rfl, hlen.le.trans hsize, ?_⟩
  simp

theorem appendOpt_eq {options : AnswerOptions} (hfits : options.OptFits) (response : List UInt8) :
    ∃ opt : List UInt8, OptReads metadata opt ∧ opt.length ≤ 11 + 65535 ∧
      (metadata.edns.elim response fun edns => encodeOptRecord edns metadata.extendedRcode
        metadata.extendedDnsError options (metadata.udpCeiling options) response) =
          response ++ opt := by
  unfold OptReads
  cases metadata.edns with
  | none => exact ⟨[], rfl, by simp, by simp⟩
  | some edns =>
    obtain ⟨fixed, rdata, hfixed, hsize, heq⟩ := encodeOptRecord_eq edns metadata.extendedRcode
      metadata.extendedDnsError options (metadata.udpCeiling options) response
    refine ⟨_, ⟨fixed, rdata, hfixed, rfl⟩, ?_, heq⟩
    unfold AnswerOptions.OptFits at hfits
    simp only [length_append, length_cons, length_nil, length_be16, hfixed]
    omega

section Contract

variable {header : Header} {rcode : Rcode} {authoritative : Bool} {question : Option Question}
  {answers authorities additionals : List ResourceRecord} {metadata : RequestMetadata}
  {options : AnswerOptions} {bytes : List UInt8} {id flags : UInt16}

/-- Records written behind a question, or behind the header of a message without
one, are found there. -/
theorem encodedRecords_read (hquest : ∀ asked ∈ question, asked.Parsed)
    {records : List ResourceRecord} (hrecs : ∀ record ∈ records, record.Storable)
    {start : List UInt8} (hstart : start.length = dnsHeaderLen) :
    ∃ chunk : List UInt8, encodeQuestionAndRecords question records start = start ++ chunk ∧
      ∀ opt : List UInt8, ∃ recordsStart,
        QuestionReads (start ++ chunk ++ opt) question recordsStart ∧
        RecordsReadAt (start ++ chunk ++ opt) recordsStart records (start ++ chunk).length := by
  cases question with
  | none =>
    obtain ⟨chunk, after, hwrite, hread⟩ :=
      (NameCompressor.sound_empty start).encodeRecords hrecs
    refine ⟨chunk, by rw [encodeQuestionAndRecords, hwrite], fun opt => ⟨start.length, hstart, ?_⟩⟩
    exact hread.append opt
  | some asked =>
    have hasked := hquest asked rfl
    have hname : At (encodeQuestion asked start) dnsHeaderLen asked.qname.toWire := by
      rw [← hstart, encodeQuestion, append_assoc]
      exact At.at_end_append _ _ _
    obtain ⟨chunk, after, hwrite, hread⟩ :=
      ((NameCompressor.sound_empty _).registerNameAtOffset asked.qname hname).encodeRecords hrecs
    have hbytes : encodeQuestion asked start = start ++
        (asked.qname.toWire ++ asked.qtypeQclassWire) := by
      rw [encodeQuestion, append_assoc]
      rfl
    have hlen := hasked.length_encoded hstart
    refine ⟨asked.qname.toWire ++ asked.qtypeQclassWire ++ chunk, ?_, ?_⟩
    · rw [encodeQuestionAndRecords, hwrite, hbytes]
      simp
    · intro opt
      have hwhole : start ++ (asked.qname.toWire ++ asked.qtypeQclassWire ++ chunk) =
          encodeQuestion asked start ++ chunk := by
        rw [hbytes]
        simp
      rw [hwhole]
      refine ⟨(encodeQuestion asked start).length,
        ⟨(labelsWire asked.qname.labels).length + 1, ?_, ?_, hlen⟩, hread.append opt⟩
      · rw [← hstart, append_assoc]
        exact hasked.parse_encoded start (chunk ++ opt)
      · have hat := At.at_end_append (start ++ asked.qname.toWire) asked.qtypeQclassWire
          (chunk ++ opt)
        have hpos : (start ++ asked.qname.toWire).length =
            dnsHeaderLen + ((labelsWire asked.qname.labels).length + 1) := by
          rw [length_append, hstart, DomainName.toWire, length_append, length_singleton]
        rw [hpos, hasked.wire_eq] at hat
        rw [hbytes, hasked.wire_eq]
        simpa only [append_assoc] using hat

theorem ResponseHolds.of_edns {other : RequestMetadata}
    (h : ResponseHolds bytes id flags question other answers authorities additionals)
    (hedns : other.edns = metadata.edns) :
    ResponseHolds bytes id flags question metadata answers authorities additionals := by
  obtain ⟨hheader, hbody⟩ := h
  unfold OptReads at hbody
  rw [hedns] at hheader hbody
  exact ⟨hheader, hbody⟩

/-- A message that fits in a datagram never holds more records than can be
counted. -/
theorem ResponseHolds.reads_of_length_le
    (h : ResponseHolds bytes id flags question metadata answers authorities additionals)
    (hlen : bytes.length ≤ 65535) :
    ResponseReads bytes id flags question metadata answers authorities additionals := by
  obtain ⟨recordsStart, recordsEnd, -, hrecs, -, hend, -⟩ := h.body
  have hcount := hrecs.length_le
  simp only [length_append] at hcount
  refine ⟨h, by omega, by omega, ?_⟩
  split <;> omega

theorem RequestMetadata.udpCeiling_le (metadata : RequestMetadata) (options : AnswerOptions) :
    metadata.udpCeiling options ≤ 65535 := by
  have hmax := options.maxUdpPayload.toNat_lt
  have hmin : metadata.udpCeiling options ≤ options.maxUdpPayload.toNat := Nat.min_le_right _ _
  omega

/-- A response without records is what the general builder writes for no records. -/
theorem emptyResponseBytes_eq (header : Header) (rcode : Rcode) (authoritative truncated : Bool)
    (question : Option Question) (metadata : RequestMetadata) (options : AnswerOptions) :
    emptyResponseBytes header rcode authoritative truncated question metadata options =
      buildResponseInner header rcode authoritative truncated question [] []
        [] metadata options := by
  unfold emptyResponseBytes buildResponseInner appendZoneImageResponseEdns zoneImageEdnsSizing
  cases metadata.edns <;> cases question <;> rfl

/-- Unless a datagram is too long, the response is the one with all records. -/
theorem buildResponse_eq (header : Header) (rcode : Rcode) (authoritative : Bool)
    (question : Option Question) (answers authorities additionals : List ResourceRecord)
    (metadata : RequestMetadata) (options : AnswerOptions) :
    buildResponse header rcode authoritative question answers authorities additionals
      metadata options =
      if options.transport = .udp ∧ metadata.udpCeiling options <
        (buildResponseInner header rcode authoritative false
          question answers authorities additionals metadata options).length then
        if answers.isEmpty && authorities.isEmpty && additionals.isEmpty then
          buildResponseInner header rcode authoritative true question [] [] [] metadata options
        else buildTruncatedResponse header rcode authoritative question answers authorities
          additionals metadata options
      else buildResponseInner header rcode authoritative false question answers authorities
        additionals metadata options := by
  unfold buildResponse buildEmptyResponse
  simp only [emptyResponseBytes_eq]
  split
  next hempty =>
    simp only [Bool.and_eq_true, List.isEmpty_iff] at hempty
    obtain ⟨⟨rfl, rfl⟩, rfl⟩ := hempty
    rfl
  · rfl

/-- The reader's view of a response: which records were kept of those given, and
what the flags say about the others. -/
structure WellFormedResponse (bytes : List UInt8) (header : Header) (question : Option Question)
    (answers authorities additionals : List ResourceRecord) (metadata : RequestMetadata)
    (options : AnswerOptions) (kept : KeptRecords) (flags : UInt16) : Prop where
  reads : ResponseReads bytes header.id flags question metadata kept.answers kept.authorities
    kept.additionals
  answers_first : kept.answers <+: answers
  authorities_sublist : kept.authorities.Sublist authorities
  additionals_first : kept.additionals <+: additionals
  stream : options.transport ≠ .udp →
    kept.answers = answers ∧ kept.authorities = authorities ∧ kept.additionals = additionals
  datagram : options.transport = .udp → bytes.length ≤ metadata.udpCeiling options ∨
    kept.answers = [] ∧ kept.authorities = [] ∧ kept.additionals = []
  truncation : kept.answers ≠ answers ∨ kept.authorities ≠ authorities → flags &&& 0x0200 ≠ 0

theorem KeptRecords.partOf_self (truncated : Bool) :
    KeptRecords.PartOf
      ⟨answers, authorities, additionals, truncated⟩ answers authorities additionals :=
  ⟨prefix_rfl, List.Sublist.refl _, prefix_rfl, fun _ => ⟨rfl, rfl⟩⟩

/-- A response holds the records it was built from, however many there are. -/
theorem buildResponseInner_holds (hquest : ∀ asked ∈ question, asked.Parsed)
    (hoptions : options.OptFits) (header : Header) (rcode : Rcode) (authoritative truncated : Bool)
    (metadata : RequestMetadata)
    (hrecs : ∀ record ∈ answers ++ authorities ++ additionals, record.Storable) : ResponseHolds
      (buildResponseInner header rcode authoritative truncated question answers authorities
        additionals metadata options)
      header.id (header.responseFlags rcode authoritative truncated) question metadata answers
        authorities additionals := by
  unfold buildResponseInner
  generalize hstart : responseHeaderBytes header rcode authoritative truncated question _ _ _ =
    start
  have hlen : start.length = dnsHeaderLen := by
    rw [← hstart]
    rfl
  obtain ⟨chunk, hwrite, hread⟩ := encodedRecords_read hquest hrecs hlen
  obtain ⟨opt, hopt, hsize, happend⟩ := appendOpt_eq metadata hoptions (start ++ chunk)
  obtain ⟨recordsStart, hasked, hfound⟩ := hread opt
  simp only [hwrite, happend]
  refine ⟨?_, recordsStart, (start ++ chunk).length, hasked, hfound, ?_, ?_, ?_⟩
  · have hat : At (start ++ chunk ++ opt) 0 start := by
      simp only [At, drop_zero, append_assoc]
      exact prefix_append _ _
    rw [responseHeaderBytes] at hstart
    rw [hstart]
    exact hat
  · rw [drop_left]
    exact hopt
  · simp
  · have htotal : (start ++ chunk ++ opt).length = (start ++ chunk).length + opt.length :=
      length_append
    omega

/-- A part of the records, built as a datagram that fits or holds no record. -/
theorem KeptRecords.PartOf.wellFormed (hquest : ∀ asked ∈ question, asked.Parsed)
    (hoptions : options.OptFits) (hrecs : ∀ record ∈ answers ++ authorities ++ additionals,
      record.Storable) (hudp : options.transport = .udp) {kept : KeptRecords}
    {other : RequestMetadata} (hpart : kept.PartOf answers authorities additionals)
    (hedns : other.edns = metadata.edns)
    (hbytes : bytes = buildResponseInner header rcode authoritative kept.truncated question
      kept.answers kept.authorities kept.additionals other options)
    (hfits : bytes.length ≤ metadata.udpCeiling options ∨
      kept.answers = [] ∧ kept.authorities = [] ∧ kept.additionals = []) :
    WellFormedResponse bytes header question answers authorities additionals metadata options kept
      (header.responseFlags rcode authoritative kept.truncated) := by
  have hkept : ∀ record ∈ kept.answers ++ kept.authorities ++ kept.additionals,
      record.Storable := by
    have hsub := (hpart.answers_first.sublist.append hpart.authorities_sublist).append
      hpart.additionals_first.sublist
    exact fun record hrec => hrecs record (hsub.subset hrec)
  have hholds :=
    (buildResponseInner_holds hquest hoptions header rcode authoritative kept.truncated other
    hkept).of_edns hedns
  rw [← hbytes] at hholds
  refine ⟨?_, hpart.answers_first, hpart.authorities_sublist, hpart.additionals_first,
    fun hstream => absurd hudp hstream, fun _ => hfits, ?_⟩
  · rcases hfits with hfits | ⟨hans, hauths, hadds⟩
    · exact hholds.reads_of_length_le (hfits.trans (metadata.udpCeiling_le options))
    · rw [hans, hauths, hadds] at hholds ⊢
      exact ⟨hholds, by simp, by simp, by split <;> simp⟩
  · intro hdropped
    rw [Header.responseFlags, responseFlags_tc]
    by_contra htruncated
    obtain ⟨hans, hauths⟩ := hpart.complete (by simpa using htruncated)
    rcases hdropped with hdropped | hdropped
    · exact hdropped hans
    · exact hdropped hauths

theorem buildTruncatedResponse_wellFormed (hquest : ∀ asked ∈ question, asked.Parsed)
    (hoptions : options.OptFits) (hrecs : ∀ record ∈ answers ++ authorities ++ additionals,
      record.Storable) (hudp : options.transport = .udp) (header : Header) (rcode : Rcode)
    (authoritative : Bool) (metadata : RequestMetadata) :
    ∃ (kept : KeptRecords) (flags : UInt16), WellFormedResponse
        (buildTruncatedResponse header rcode authoritative question answers authorities additionals
          metadata options)
        header question answers authorities additionals metadata options kept flags := by
  have hstart := @KeptRecords.partOf_self answers authorities additionals false
  -- the loop without the extended error and the loop with the metadata as given
  have hloop : ∀ (other : RequestMetadata) (glue : Bool), other.edns = metadata.edns →
      ∃ (kept : KeptRecords) (flags : UInt16), WellFormedResponse
          (truncationLoop (fun kept => buildResponseInner header rcode authoritative kept.truncated
            question kept.answers kept.authorities kept.additionals other options)
            (metadata.udpCeiling options) glue ⟨answers, authorities, additionals, false⟩)
          header question answers authorities additionals metadata options kept flags := by
    intro other glue hedns
    obtain ⟨final, hpart, heq, hfits⟩ := truncationLoop_spec (fun kept =>
      buildResponseInner header rcode authoritative kept.truncated question kept.answers
        kept.authorities kept.additionals other options) (metadata.udpCeiling options) glue hstart
    exact ⟨final, _, hpart.wellFormed hquest hoptions hrecs hudp hedns heq (heq ▸ hfits)⟩
  unfold buildTruncatedResponse
  dsimp only
  split
  · have hstripped : metadata.withoutExtendedDnsError.edns = metadata.edns := rfl
    split
    next hfits =>
      exact ⟨_, _, hstart.wellFormed hquest hoptions hrecs hudp hstripped rfl (Or.inl hfits)⟩
    · exact hloop _ _ rfl
  · exact hloop _ _ rfl

/-- A response reads back as records it was given, in order, with counts that say how many,
exactly when it is a datagram or its sections can be counted. Over a stream all records are
there; a datagram fits or holds none, and says so when an answer or an authority record is
missing. A response that fits a datagram is never cut. -/
theorem buildResponse_wellFormed (header : Header) (rcode : Rcode) (authoritative : Bool)
    (question : Option Question) (answers authorities additionals : List ResourceRecord)
    (metadata : RequestMetadata) (options : AnswerOptions)
    (hquestion : ∀ asked ∈ question, asked.Parsed)
    (hrecords : ∀ record ∈ answers ++ authorities ++ additionals, record.Storable)
    (hoptions : options.OptFits) : ((∃ (kept : KeptRecords) (flags : UInt16), WellFormedResponse
        (buildResponse header rcode authoritative question answers authorities additionals
          metadata options)
        header question answers authorities additionals metadata options kept flags) ↔
      (options.transport ≠ .udp → answers.length ≤ 65535 ∧ authorities.length ≤ 65535 ∧
        additionals.length + (if metadata.edns.isSome then 1 else 0) ≤ 65535)) ∧
      ((buildResponseInner header rcode authoritative false question answers authorities
          additionals metadata options).length ≤ metadata.udpCeiling options → ResponseReads
          (buildResponse header rcode authoritative question answers authorities additionals
            metadata options)
          header.id (header.responseFlags rcode authoritative false) question metadata answers
          authorities additionals) := by
  have hholds :=
    buildResponseInner_holds hquestion hoptions header rcode authoritative false metadata hrecords
  rw [buildResponse_eq]
  set whole :=
    buildResponseInner header rcode authoritative false question answers authorities
      additionals metadata
    options
  have hshort : whole.length ≤ metadata.udpCeiling options → ResponseReads whole header.id
      (header.responseFlags rcode authoritative false) question metadata answers
      authorities additionals :=
    fun hfits => hholds.reads_of_length_le (hfits.trans (metadata.udpCeiling_le options))
  refine ⟨⟨fun ⟨kept, flags, hkept⟩ hstream => ?_, fun hcounts => ?_⟩, fun hfits => ?_⟩
  · -- over a stream the counts are those of the records that were given
    obtain ⟨hanswers, hauthorities, hadditionals⟩ := hkept.stream hstream
    rw [← hanswers, ← hauthorities, ← hadditionals]
    exact hkept.reads.counts_fit
  · by_cases hlong : options.transport = .udp ∧ metadata.udpCeiling options < whole.length
    · rw [if_pos hlong]
      split
      next hempty =>
        simp only [Bool.and_eq_true, List.isEmpty_iff] at hempty
        obtain ⟨⟨rfl, rfl⟩, rfl⟩ := hempty
        exact ⟨_, _,
          (KeptRecords.partOf_self true).wellFormed hquestion hoptions hrecords hlong.1 rfl rfl
          (Or.inr ⟨rfl, rfl, rfl⟩)⟩
      · exact buildTruncatedResponse_wellFormed hquestion hoptions hrecords hlong.1 header rcode
          authoritative metadata
    · have hfits : options.transport = .udp → whole.length ≤ metadata.udpCeiling options :=
        fun hudp => Nat.not_lt.mp fun hless => hlong ⟨hudp, hless⟩
      have hreads : ResponseReads whole header.id
          (header.responseFlags rcode authoritative false) question
          metadata answers authorities additionals := by
        by_cases hudp : options.transport = .udp
        · exact hshort (hfits hudp)
        · exact ⟨hholds, hcounts hudp⟩
      rw [if_neg hlong]
      refine ⟨⟨answers, authorities, additionals, false⟩, _, hreads, prefix_rfl,
        List.Sublist.refl _, prefix_rfl, fun _ => ⟨rfl, rfl, rfl⟩, fun hudp => Or.inl (hfits hudp),
        ?_⟩
      rintro (hdropped | hdropped)
      · exact absurd rfl hdropped
      · exact absurd rfl hdropped
  · rw [if_neg fun hlong => absurd hlong.2 (Nat.not_lt.mpr hfits)]
    exact hshort hfits

end Contract

private def hostName : DomainName := ⟨[[104]], by decide⟩

private def hostQuestion : Question := ⟨hostName, 1, 1, 3, [0, 1, 0, 1], true⟩

private def hostAddress (address : ℕ) : ResourceRecord :=
  ⟨hostName, RecordType.a, classIn, 300, be32 (UInt32.ofNat address)⟩

private def streamOptions : AnswerOptions := ⟨.tcp, 1232, 0, 0, .off, [], none⟩

private def datagramOptions : AnswerOptions := { streamOptions with transport := .udp }

private theorem hostQuestion_parsed : ∀ asked ∈ some hostQuestion, asked.Parsed := by
  intro asked hasked
  obtain rfl := Option.some.inj hasked
  exact ⟨by decide, fun _ => by decide, by decide⟩

private theorem hostAddress_storable (address : ℕ) : (hostAddress address).Storable :=
  ⟨show hostName.wireLen ≤ 255 by decide, by simp [hostAddress]⟩

/-- Mail for `h.` goes to `m.h.`, a name that is compressed in the data. -/
private def hostMail (preference : ℕ) : ResourceRecord :=
  ⟨hostName, RecordType.mx, classIn, 300, be16 (UInt16.ofNat preference) ++ [1, 109, 1, 104, 0]⟩

private def hostMails : List ResourceRecord := (List.range 40).map hostMail

private theorem hostMails_storable :
    ∀ record ∈ hostMails ++ [] ++ [hostAddress 1], record.Storable := by
  intro record hrec
  simp only [append_nil, mem_append, mem_singleton, hostMails] at hrec
  rcases hrec with hrec | rfl
  · obtain ⟨preference, -, rfl⟩ := mem_map.mp hrec
    exact ⟨show hostName.wireLen ≤ 255 by decide, by simp [hostMail]⟩
  · exact hostAddress_storable 1

/-- Forty mail hosts over a stream, and in a datagram of 512 octets, which cannot hold them. -/
theorem buildResponse_wellFormed_host : (∃ kept flags, WellFormedResponse
        (buildResponse ⟨7, 0x0100⟩ .noError true (some hostQuestion) hostMails [] [hostAddress 1]
          ⟨none, 0, none⟩ streamOptions)
        ⟨7, 0x0100⟩ (some hostQuestion) hostMails [] [hostAddress 1]
          ⟨none, 0, none⟩ streamOptions kept flags) ∧
      512 < (buildResponseInner ⟨7, 0x0100⟩ .noError true false (some hostQuestion) hostMails []
          [hostAddress 1] ⟨none, 0, none⟩ datagramOptions).length ∧
      ∃ kept flags, WellFormedResponse
        (buildResponse ⟨7, 0x0100⟩ .noError true (some hostQuestion) hostMails [] [hostAddress 1]
          ⟨none, 0, none⟩ datagramOptions)
        ⟨7, 0x0100⟩ (some hostQuestion) hostMails [] [hostAddress 1]
          ⟨none, 0, none⟩ datagramOptions kept flags := by
  refine ⟨?_, by decide +kernel, ?_⟩
  · exact (buildResponse_wellFormed _ _ _ _ _ _ _ _ _ hostQuestion_parsed hostMails_storable
      (by decide)).1.mpr fun _ => by decide
  · exact (buildResponse_wellFormed _ _ _ _ _ _ _ _ _ hostQuestion_parsed hostMails_storable
      (by decide)).1.mpr fun hstream => absurd rfl hstream

/-- Over a stream, the header of a response with 65536 addresses says that it has
none. -/
theorem buildResponse_counts_wrap : ∃ recordsStart recordsEnd : ℕ, RecordsReadAt
        (buildResponse ⟨7, 0x0100⟩ .noError true (some hostQuestion)
          ((List.range 65536).map hostAddress) [] [] ⟨none, 0, none⟩ streamOptions)
        recordsStart ((List.range 65536).map hostAddress) recordsEnd ∧
      At (buildResponse ⟨7, 0x0100⟩ .noError true (some hostQuestion)
          ((List.range 65536).map hostAddress) [] [] ⟨none, 0, none⟩ streamOptions) 6 (be16 0) := by
  have hlength : ((List.range 65536).map hostAddress).length = 65536 := by
    rw [length_map, length_range]
  have hrecords : ∀ record ∈ (List.range 65536).map hostAddress ++ [] ++ [], record.Storable := by
    intro record hrecord
    rw [append_nil, append_nil] at hrecord
    obtain ⟨address, -, rfl⟩ := mem_map.mp hrecord
    exact hostAddress_storable address
  have hholds :=
    buildResponseInner_holds hostQuestion_parsed (show streamOptions.OptFits by decide)
      ⟨7, 0x0100⟩ .noError true false ⟨none, 0, none⟩ hrecords
  rw [buildResponse_eq, if_neg (fun h => absurd h.1 (by decide))]
  generalize buildResponseInner _ _ _ _ _ _ _ _ _ _ = bytes at hholds
  generalize (List.range 65536).map hostAddress = addresses at hholds hlength ⊢
  obtain ⟨recordsStart, recordsEnd, -, hread, -⟩ := hholds.body
  rw [append_nil, append_nil] at hread
  refine ⟨recordsStart, recordsEnd, hread, ?_⟩
  have hheader := hholds.header
  rw [hlength, sectionCountHeaderBytes] at hheader
  exact (hheader.right_of_append _).left_of_append.left_of_append

end BoronDns
