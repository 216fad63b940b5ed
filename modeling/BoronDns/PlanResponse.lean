import BoronDns.ImageDnssecSoundness
import BoronDns.ResponseMessage

/-!
The response to a plan. For every zone that came in over a transfer, every plan
its image makes, augmented or not, and every parsed question, the message that
is built reads back as the question and the records of the plan.
-/

namespace BoronDns

open Bytes List Option ZoneImage RecordType
open PackedRdataEncoding (isCopy isSingleName soaLengths)

variable {rdata : Rdata}

/-- The bytes over which a name of at most 255 octets was found are that name. -/
theorem fittingName_of_wireNameLenAt {offset len : ℕ} (h : wireNameLenAt rdata offset = some len)
    (hlen : len ≤ 255) : FittingName ((rdata.drop offset).take len) := by
  obtain ⟨labels, hvalid, hat, rfl⟩ := wireNameLenAt_sound h
  have htake : (rdata.drop offset).take ((labelsWire labels).length + 1) =
      labelsWire labels ++ [0] := by
    have := prefix_iff_eq_take.mp hat
    simpa using this.symm
  rw [htake]
  refine ⟨⟨labels, hvalid⟩, ?_, rfl⟩
  rw [← DomainName.length_labelsWire_add_one]
  exact hlen

theorem soa_fits {mnameLen rnameLen : ℕ} (hmname : wireNameLenAt rdata 0 = some mnameLen)
    (hrname : wireNameLenAt rdata mnameLen = some rnameLen) (hm : mnameLen ≤ 255)
    (hr : rnameLen ≤ 255) :
    RdataFits (.soa (UInt8.ofNat mnameLen) (UInt8.ofNat rnameLen)) rdata := by
  have hpos : 0 < mnameLen := by
    obtain ⟨labels, -, -, rfl⟩ := wireNameLenAt_sound hmname
    omega
  have hmNat : (UInt8.ofNat mnameLen).toNat = mnameLen := UInt8.toNat_ofNat_of_lt' (by
    simp only [UInt8.size]
    omega)
  have hrNat : (UInt8.ofNat rnameLen).toNat = rnameLen := UInt8.toNat_ofNat_of_lt' (by
    simp only [UInt8.size]
    omega)
  have hne : UInt8.ofNat mnameLen ≠ 0 := by
    intro h0
    rw [h0] at hmNat
    simp at hmNat
    omega
  have hlengths : (PackedRdataEncoding.soa (UInt8.ofNat mnameLen)
      (UInt8.ofNat rnameLen)).soaLengths = _ := PackedRdataEncoding.soaLengths_soa hne
  have hfirst := fittingName_of_wireNameLenAt hmname hm
  have hsecond := fittingName_of_wireNameLenAt hrname hr
  unfold RdataFits
  rw [hlengths]
  split
  · trivial
  split
  next hsingle =>
    rw [isSingleName, beq_iff_eq] at hsingle
    simp [soaLengths, hsingle] at hlengths
  · simp only [hmNat, hrNat]
    exact ⟨by simpa using hfirst, hsecond⟩

/-- The encoding noted for the data of a transferred record can be written. -/
theorem rdataFits_zoneImageRdataEncoding {rrType : UInt16}
    (h : ∀ offset len, compressibleNameOffset rrType = some offset →
      wireNameLenAt rdata offset = some len → len ≤ 255) :
    RdataFits (zoneImageRdataEncoding rrType rdata) rdata := by
  have hcopy : RdataFits .copy rdata := by simp [RdataFits, PackedRdataEncoding.copy, isCopy]
  unfold zoneImageRdataEncoding
  split
  next htype =>
    split
    next hname =>
      have hfits := fittingName_of_wireNameLenAt hname
        (h 0 _ (by simp [compressibleNameOffset, htype]) hname)
      simpa [RdataFits, PackedRdataEncoding.singleName, isCopy, isSingleName] using hfits
    · exact hcopy
  rename_i htype
  split
  · split
    · exact hcopy
    rename_i mnameLen hmname
    split
    · exact hcopy
    rename_i rnameLen hrname
    split
    next hlens => exact soa_fits hmname hrname hlens.2.1 hlens.2.2
    · exact hcopy
  split
  next hmx =>
    split
    next hname =>
      have hfits := fittingName_of_wireNameLenAt hname.2
        (h 2 _ (by rw [compressibleNameOffset, if_neg htype, if_pos hmx]) hname.2)
      rw [take_of_length_le (by simp)] at hfits
      exact ⟨rfl, by omega, hfits⟩
    · exact hcopy
  · exact hcopy

variable {image : ZoneImage}

theorem compileRrsets_recordsFit {origin : DomainName} {serial : Option UInt32}
    {rrsets : List Rrset} (hrrsets : ∀ rrset ∈ rrsets, rrset.FromTransfer)
    (h : compileRrsets origin serial rrsets = .ok image) : image.RecordsFit := by
  obtain ⟨-, hlen, -, -, himage, -⟩ := compileRrsets_ok h
  intro rrset hrrset
  rw [himage] at hrrset
  obtain ⟨stored, hstored, rfl⟩ := mem_map.mp hrrset
  have hmem := mem_sortRrsets.mp hstored
  refine ⟨(hrrsets stored hmem).owner_fits, ?_⟩
  intro record hrec
  obtain ⟨rdata, hrdata, rfl⟩ := mem_map.mp hrec
  have hrdata := mem_sortRdatas.mp hrdata
  exact ⟨hlen stored hmem rdata hrdata,
    rdataFits_zoneImageRdataEncoding ((hrrsets stored hmem).names_fit rdata hrdata)⟩

inductive ZoneImage.MakesPlan (image : ZoneImage) (qname : DomainName) :
    ZoneImageLookupPlan → Prop
  | response (qtype qclass : UInt16) (maxCnameChain : ℕ) (anyResponse : AnyResponseMode)
      {hint : Bool} (hhint : qname.LowercaseHint hint) :
      MakesPlan image qname
        (image.lookupResponsePlan qname qtype qclass maxCnameChain anyResponse hint)
  | direct {qtype qclass : UInt16} {hint : Bool} {plan : ZoneImageLookupPlan}
      (hhint : qname.LowercaseHint hint)
      (h : image.lookupDirectAnswerPlan qname qtype qclass hint = some plan) :
      MakesPlan image qname plan
  | exact {qtype qclass : UInt16} {plan : ZoneImageLookupPlan}
      (h : image.lookupExactPlan qname qtype qclass = .found plan) : MakesPlan image qname plan
  | augmented (sha1 : List UInt8 → List UInt8) {plan : ZoneImageLookupPlan}
      (h : MakesPlan image qname plan) (name : DomainName) (qclass nsec3MaxIterations : UInt16)
      (hint : Bool) :
      MakesPlan image qname
        (image.augmentLookupPlanWithDnssec sha1 plan name qclass nsec3MaxIterations hint)

theorem ZoneImage.MakesPlan.sound {qname : DomainName}
    {plan : ZoneImageLookupPlan} (h : image.MakesPlan qname plan) (hbuilt : image.WellBuilt)
    (hqname : qname.wireLen ≤ 255) : plan.Sound image qname := by
  induction h with
  | response qtype qclass maxCnameChain anyResponse hhint =>
    exact lookupResponsePlan_sound hbuilt hqname hhint _ _ _ _
  | direct hhint h => exact lookupDirectAnswerPlan_sound hbuilt hhint h
  | exact h => exact lookupExactPlan_sound h
  | augmented sha1 _ name qclass maxIterations hint ih =>
    exact augmentLookupPlanWithDnssec_sound ih _ _ _ _

def buildZoneImageResponseFromPlanRecords (header : Header) (question : Question)
    (image : ZoneImage) (plan : ZoneImageLookupPlan) (shape : ZoneImagePlanResponseShape)
    (metadata : RequestMetadata) (options : AnswerOptions) (truncated : Bool)
    (sizing : ZoneImageResponseSizing) : Option (List UInt8) :=
  (shape.sectionCountHeaderBytesWithExtraAdditional sizing.edns.additionalCount).map fun counts =>
    zoneImageResponseBytes header question shape.responseFlagBits truncated counts
      (image.visitPlanRecords plan) metadata options sizing

namespace ZoneImageLookupPlan

variable {image : ZoneImage} {qname : DomainName} {plan : ZoneImageLookupPlan}

/-- The sections of a plan are short enough to be counted in 16 bits. -/
def SectionsFit (image : ZoneImage) (plan : ZoneImageLookupPlan) : Prop :=
  (image.visitPlanAnswerRecords plan).length ≤ u16Max ∧
    (image.visitPlanAuthorityRecords plan).length ≤ u16Max ∧
    (image.visitPlanAdditionalRecords plan).length ≤ u16Max

/-- The counts a sound plan keeps are those of the records it stands for. -/
theorem Sound.counts (h : plan.Sound image qname) (hfit : plan.SectionsFit image) :
    plan.answerRecordCount = (image.visitPlanAnswerRecords plan).length ∧
      plan.authorityRecordCount = (image.visitPlanAuthorityRecords plan).length ∧
      plan.additionalRecordCount = (image.visitPlanAdditionalRecords plan).length := by
  obtain ⟨hans, hauths, hadds⟩ := hfit
  simp only [h.answer_count, h.authority_count, h.additional_count, answerSizes, authoritySizes,
    additionalSizes, length_map, u16Max, u32Max] at *
  omega

theorem Sound.responseShape_isSome (h : plan.Sound image qname) :
    plan.responseShape.isSome = true ↔ plan.SectionsFit image := by
  have hcounts : plan.responseShape.isSome = true ↔ plan.answerRecordCount ≤ u16Max ∧
      plan.authorityRecordCount ≤ u16Max ∧ plan.additionalRecordCount ≤ u16Max := by
    unfold responseShape
    split
    next hle => simpa using hle
    next hlt => simpa using hlt
  rw [hcounts, SectionsFit, h.answer_count, h.authority_count, h.additional_count]
  simp only [answerSizes, authoritySizes, additionalSizes, length_map, u16Max, u32Max]
  omega

/-- The shape of a sound plan carries the counts of its records. -/
theorem Sound.responseShape_eq (h : plan.Sound image qname) {shape : ZoneImagePlanResponseShape}
    (hshape : plan.responseShape = some shape) : plan.SectionsFit image ∧
      shape = {
        responseFlagBits := plan.rcode.responseFlagBits plan.authoritative
        answerCount := UInt16.ofNat (image.visitPlanAnswerRecords plan).length
        authorityCount := UInt16.ofNat (image.visitPlanAuthorityRecords plan).length
        additionalCount := UInt16.ofNat (image.visitPlanAdditionalRecords plan).length
        sectionCountHeaderBytes := sectionCountHeaderBytes
          (UInt16.ofNat (image.visitPlanAnswerRecords plan).length)
          (UInt16.ofNat (image.visitPlanAuthorityRecords plan).length)
          (UInt16.ofNat (image.visitPlanAdditionalRecords plan).length)
        bodyWireUpperBound := plan.bodyWireUpperBound } := by
  have hfit := h.responseShape_isSome.mp (by simp [hshape])
  obtain ⟨hans, hauths, hadds⟩ := h.counts hfit
  refine ⟨hfit, ?_⟩
  unfold responseShape at hshape
  split at hshape
  · rw [← hans, ← hauths, ← hadds]
    exact (some.inj hshape).symm
  · simp at hshape

theorem Sound.records_wellFormed (h : plan.Sound image qname) (hfit : image.RecordsFit) :
    ∀ record ∈ image.visitPlanAnswerRecords plan ++ image.visitPlanAuthorityRecords plan ++
      image.visitPlanAdditionalRecords plan, record.WellFormed := by
  intro record hrec
  simp only [mem_append] at hrec
  rcases hrec with (hrec | hrec) | hrec
  · exact h.answers_wellFormed hfit record hrec
  · exact authorities_wellFormed hfit plan record hrec
  · exact h.additionals_wellFormed hfit record hrec

end ZoneImageLookupPlan

variable (metadata : RequestMetadata)

def RequestMetadata.optCount : ℕ :=
  if metadata.edns.isSome then 1 else 0

theorem zoneImageEdnsSizing_additionalCount (options : AnswerOptions) :
    (zoneImageEdnsSizing metadata options).additionalCount = UInt16.ofNat metadata.optCount := by
  unfold zoneImageEdnsSizing RequestMetadata.optCount
  cases metadata.edns <;> rfl

/-- The section counts of a message with its OPT record, when they fit. -/
theorem sectionCounts_withOpt (responseFlagBits : UInt16) (answers authorities : ℕ)
    {additionals : ℕ} (hadds : additionals ≤ u16Max) (bodyWireUpperBound : ℕ)
    (metadata : RequestMetadata) :
    ZoneImagePlanResponseShape.sectionCountHeaderBytesWithExtraAdditional
        ⟨responseFlagBits, UInt16.ofNat answers, UInt16.ofNat authorities,
          UInt16.ofNat additionals, sectionCountHeaderBytes (UInt16.ofNat answers)
            (UInt16.ofNat authorities) (UInt16.ofNat additionals), bodyWireUpperBound⟩
        (UInt16.ofNat metadata.optCount) = if additionals + metadata.optCount ≤ u16Max then
        some (sectionCountHeaderBytes (UInt16.ofNat answers) (UInt16.ofNat authorities)
          (UInt16.ofNat (additionals + metadata.optCount))) else none := by
  unfold ZoneImagePlanResponseShape.sectionCountHeaderBytesWithExtraAdditional
    RequestMetadata.optCount
  cases metadata.edns with
  | none => simp [hadds]
  | some edns =>
    have hone : ¬ UInt16.ofNat 1 = 0 := by decide
    have hnat : (UInt16.ofNat additionals).toNat = additionals :=
      UInt16.toNat_ofNat_of_lt' (by simp only [UInt16.size, u16Max] at *; omega)
    simp only [isSome_some, if_true, if_neg hone, hnat, UInt16.ofNat_add]
    have hval : (UInt16.ofNat 1).toNat = 1 := rfl
    rw [hval]
    by_cases hover : u16Max < additionals + 1
    · rw [if_pos hover, if_neg (by omega)]
    · rw [if_neg hover, if_pos (by omega)]

/-- Every response reads back as its plan: the question comes first, then in
order exactly the records of the plan, with names equal up to case and pointers
only to earlier offsets, and the counts are those of the records. A message is
made unless the OPT record is one additional record too many. -/
theorem buildZoneImageResponseFromPlanRecords_reads {packet : List UInt8} {question : Question}
    (hquestion : Question.parse packet = .ok question) {origin : DomainName}
    {serial : Option UInt32} {rrsets : List Rrset} (hrrsets : ∀ rrset ∈ rrsets, rrset.FromTransfer)
    {image : ZoneImage} (himage : compileRrsets origin serial rrsets = .ok image)
    {qname : DomainName} (hqname : qname.wireLen ≤ 255)
    {plan : ZoneImageLookupPlan} (hplan : image.MakesPlan qname plan)
    (hfit : plan.SectionsFit image) (header : Header)
    (metadata : RequestMetadata) (options : AnswerOptions) (truncated : Bool) (udpCeiling : ℕ) :
    ∃ shape, plan.responseShape = some shape ∧
      ((image.visitPlanAdditionalRecords plan).length + metadata.optCount ≤ u16Max ↔
        (buildZoneImageResponseFromPlanRecords header question image plan shape metadata options
          truncated (zoneImageResponseSizing udpCeiling metadata options)).isSome = true) ∧
      ∀ bytes, buildZoneImageResponseFromPlanRecords header question image plan shape metadata
          options truncated (zoneImageResponseSizing udpCeiling metadata options) = some bytes →
        MessageReads bytes header.id
          (header.responseFlagsFromPlanBits
            (plan.rcode.responseFlagBits plan.authoritative) truncated)
          question metadata (image.visitPlanAnswerRecords plan)
          (image.visitPlanAuthorityRecords plan) (image.visitPlanAdditionalRecords plan) := by
  have hsound := hplan.sound (compileRrsets_wellBuilt himage) hqname
  obtain ⟨shape, hshape⟩ := isSome_iff_exists.mp (hsound.responseShape_isSome.mpr hfit)
  obtain ⟨-, rfl⟩ := hsound.responseShape_eq hshape
  obtain ⟨hanswers, hauthorities, hadditionals⟩ := hfit
  have hcounts := sectionCounts_withOpt (plan.rcode.responseFlagBits plan.authoritative)
    (image.visitPlanAnswerRecords plan).length (image.visitPlanAuthorityRecords plan).length
    hadditionals plan.bodyWireUpperBound metadata
  refine ⟨_, hshape, ?_, ?_⟩
  · rw [buildZoneImageResponseFromPlanRecords, zoneImageResponseSizing,
      zoneImageEdnsSizing_additionalCount, hcounts]
    split
    next hle => simpa using hle
    next hlt => simpa using hlt
  · intro bytes hbytes
    rw [buildZoneImageResponseFromPlanRecords, zoneImageResponseSizing,
      zoneImageEdnsSizing_additionalCount, hcounts] at hbytes
    split at hbytes
    next hle =>
      obtain rfl := some.inj hbytes
      exact zoneImageResponseBytes_reads header (Question.parse_parsed hquestion) _ truncated
        (hsound.records_wellFormed (compileRrsets_recordsFit hrrsets himage)) metadata options
        udpCeiling ⟨hanswers, hauthorities, hle⟩
    · simp at hbytes

private def apex : DomainName := ⟨[[116]], by decide⟩

private def serverName : DomainName := ⟨[[115], [116]], by decide⟩

private def apexQuery : List UInt8 :=
  [0, 7, 0, 0, 0, 1, 0, 0, 0, 0, 0, 0, 1, 116, 0, 0, 2, 0, 1]

private def apexQuestion : Question := ⟨apex, 2, 1, 3, [0, 2, 0, 1], true⟩

private def serverRrsets : List Rrset :=
  [⟨apex, ns, classIn, 300, [serverName.toWire]⟩, ⟨serverName, RecordType.a, classIn, 300,
    [[192, 0, 2, 1]]⟩]

private def ednsRequest : RequestMetadata :=
  ⟨some ⟨1232, false, false, false, none, false⟩, 0, none⟩

private def udpOptions : AnswerOptions := ⟨.udp, 1232, 0, 0, .off, [], none⟩

private theorem apexQuery_parse : Question.parse apexQuery = .ok apexQuestion := by decide +kernel

private theorem serverRrsets_fromTransfer : ∀ rrset ∈ serverRrsets, rrset.FromTransfer := by
  intro rrset hrrset
  rcases mem_pair.mp hrrset with rfl | rfl
  · refine ⟨by decide, fun rdata hrdata offset len hoffset hlen => ?_⟩
    obtain rfl := mem_singleton.mp hrdata
    obtain rfl : 0 = offset := some.inj hoffset
    obtain rfl : 5 = len := some.inj ((by decide +kernel : some 5 = wireNameLenAt _ _).trans hlen)
    decide
  · exact ⟨by decide, fun rdata _ offset len hoffset => by cases hoffset⟩

/-- The answer to a question for the servers of the zone: the data of the NS record is compressed,
and the address of the server and an OPT record follow. -/
theorem buildZoneImageResponse_reads_serverAddress :
    ∃ image plan shape bytes, compileRrsets apex none serverRrsets = .ok image ∧
      image.lookupResponsePlan apex 2 1 8 .minimal true = plan ∧ plan.responseShape = some shape ∧
      (image.visitPlanAnswerRecords plan).length = 1 ∧
      (image.visitPlanAdditionalRecords plan).length = 1 ∧
      buildZoneImageResponseFromPlanRecords ⟨7, 0⟩ apexQuestion image plan shape ednsRequest
        udpOptions false (zoneImageResponseSizing 512 ednsRequest udpOptions) = some bytes ∧
        bytes.length = 62 ∧
      MessageReads bytes 7
        (Header.responseFlagsFromPlanBits ⟨7, 0⟩
          (plan.rcode.responseFlagBits plan.authoritative) false)
        apexQuestion ednsRequest (image.visitPlanAnswerRecords plan)
        (image.visitPlanAuthorityRecords plan) (image.visitPlanAdditionalRecords plan) := by
  have hhint : apex.LowercaseHint true := fun _ => by decide
  have hfits : apex.wireLen ≤ 255 := by decide
  have hcompile : ∃ image plan, compileRrsets apex none serverRrsets = .ok image ∧
      image.lookupResponsePlan apex 2 1 8 .minimal true = plan ∧ plan.SectionsFit image ∧
      (image.visitPlanAnswerRecords plan).length = 1 ∧
      (image.visitPlanAdditionalRecords plan).length = 1 ∧
      (plan.responseShape.bind fun shape => buildZoneImageResponseFromPlanRecords
      ⟨7, 0⟩ apexQuestion
        image plan shape ednsRequest udpOptions false
        (zoneImageResponseSizing 512 ednsRequest udpOptions)).map List.length = some 62 :=
    ⟨_, _, rfl, rfl, ⟨by decide +kernel, by decide +kernel, by decide +kernel⟩, by decide +kernel,
      by decide +kernel, by decide +kernel⟩
  obtain ⟨image, plan, himage, hplan, hsections, hone, hglue, hlength⟩ := hcompile
  obtain ⟨shape, hshape, -, hreads⟩ := buildZoneImageResponseFromPlanRecords_reads
    apexQuery_parse serverRrsets_fromTransfer himage hfits (hplan ▸ .response 2 1 8 .minimal hhint)
    hsections ⟨7, 0⟩ ednsRequest udpOptions false 512
  rw [hshape] at hlength
  obtain ⟨bytes, hbytes, hlength⟩ := map_eq_some_iff.mp hlength
  exact ⟨image, plan, shape, bytes, himage, hplan, hshape, hone, hglue, hbytes, hlength,
    hreads bytes hbytes⟩

end BoronDns
