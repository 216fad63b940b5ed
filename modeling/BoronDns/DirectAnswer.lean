import BoronDns.TruncationContract

/-!
The direct copy of one RRset. Its owner is a pointer to the question, and all
its records carry the TTL of the RRset. Where a record has a TTL of its own, as
a signature has when the RRset it covers is cached for longer or shorter, the
copy is not the response the plan stands for.
-/

namespace BoronDns

open Bytes List ZoneImage RecordType

variable {packet : List UInt8} {next pos rrsetId : ℕ} {rrset : ImageRrset}

/-- The records a direct copy holds. -/
def directRecords (rrset : ImageRrset) : List ZoneImageWireRecord :=
  rrset.records.map (wireRecord rrset.owner.toWire rrset.fixedFields)

variable {labels : List Label} {owner : DomainName}

/-- The records of a direct copy read back from where they were written. -/
theorem directRecords_at (hname : WireNameAt packet dnsHeaderLen labels 0 next)
    (hlen : (labelsWire labels).length + 1 ≤ 255) (hpos : dnsHeaderLen < packet.length)
    (hown : owner.lowerLabels = labels.map lowerLabel)
    (fixedFields : ZoneImageRecordFixedFields) {records : List ImageRecord}
    (hrecs : ∀ record ∈ records, record.rdataEncoding.isCopy = true ∧
      record.rdata.length ≤ 65535) :
    RecordsAt (packet ++ records.flatMap fun record => directAnswerRecord fixedFields record.rdata)
      packet.length (records.map (wireRecord owner.toWire fixedFields))
      (packet ++ records.flatMap fun record =>
        directAnswerRecord fixedFields record.rdata).length := by
  induction records generalizing packet with
  | nil => simp [RecordsAt]
  | cons record rest ih =>
    obtain ⟨hcopy, hsmall⟩ := hrecs record (by simp)
    have hgrown : (packet ++ directAnswerRecord fixedFields record.rdata).length =
        packet.length + 2 + 10 + record.rdata.length := by
      simp [directAnswerRecord, directAnswerRecordPrefix]
      omega
    have hrest := ih (hname.append (directAnswerRecord fixedFields record.rdata)) (by omega)
      fun other hother => hrecs other (mem_cons_of_mem _ hother)
    rw [flatMap_cons, ← append_assoc]
    refine ⟨(packet ++ directAnswerRecord fixedFields record.rdata).length, ?_, hrest⟩
    refine RecordAt.append ⟨2, record.rdata.length, hsmall, ?_, ?_, ?_, hgrown, le_rfl⟩ _
    · have hat : At (packet ++ directAnswerRecord fixedFields record.rdata) packet.length
          (be16 0xc00c) :=
        At.at_end_append _ _ _
      obtain ⟨parsed, hparsed, hparse⟩ := DomainName.parse_of_wireNameAt
        (.pointer hat (by decide) hpos (hname.append _)) (by decide) hlen
      refine ⟨⟨owner, parsed, rfl, ?_, ?_⟩, [], be16 0xc00c, ?_, rfl,
        Or.inr ⟨12, by decide, hpos, rfl⟩⟩
      · rw [hparse, Nat.add_sub_cancel_left]
      · rw [hown, DomainName.lowerLabels, hparsed]
      · simpa using hat
    · have hat := At.at_end_append (packet ++ be16 0xc00c)
        (fixedFields.bytes ++ be16 (UInt16.ofNat record.rdata.length)) record.rdata
      simpa [directAnswerRecord, directAnswerRecordPrefix, wireRecord] using hat
    · have hat := At.at_end (packet ++ be16 0xc00c ++ fixedFields.bytes ++
        be16 (UInt16.ofNat record.rdata.length)) record.rdata
      simp only [wireRecord]
      rw [RdataAt, if_pos hcopy]
      refine ⟨?_, rfl⟩
      simpa [directAnswerRecord, directAnswerRecordPrefix, Nat.add_assoc] using hat

theorem encoding_isCopy_of_direct {rrType : UInt16} (h : directCopyRdataType rrType = true)
    (rdata : Rdata) : (zoneImageRdataEncoding rrType rdata).isCopy = true := by
  simp only [directCopyRdataType, Bool.and_eq_true, bne_iff_ne, ne_eq] at h
  rw [zoneImageRdataEncoding, if_neg (by tauto), if_neg (by tauto), if_neg (by tauto)]
  rfl

/-- The question of a response stands right behind the header. -/
theorem encodeQuestion_wireNameAt (question : Question) {start : List UInt8}
    (hstart : start.length = dnsHeaderLen) :
    WireNameAt (encodeQuestion question start) dnsHeaderLen question.qname.labels 0
      (dnsHeaderLen + (labelsWire question.qname.labels).length + 1) := by
  have hat : At (encodeQuestion question start) dnsHeaderLen
      (labelsWire question.qname.labels ++ [0]) := by
    rw [← hstart, encodeQuestion, append_assoc]
    exact At.at_end_append _ _ _
  have hname := WireNameAt.prepend question.qname.labels question.qname.labels_valid
    hat.left_of_append (.root (hat.right_of_append _))
  rwa [append_nil] at hname

theorem directAnswer_sectionCounts (rrset : ImageRrset) (metadata : RequestMetadata)
    (options : AnswerOptions) (body : List UInt8) :
    ZoneImageDirectRrset.sectionCountHeaderBytes ⟨UInt16.ofNat rrset.records.length, body⟩
        ((zoneImageEdnsSizing metadata options).additionalCount != 0) =
      sectionCountHeaderBytes (UInt16.ofNat (directRecords rrset).length) (UInt16.ofNat 0)
        (UInt16.ofNat (0 + if metadata.edns.isSome then 1 else 0)) := by
  rw [ZoneImageDirectRrset.sectionCountHeaderBytes, directRecords, length_map]
  unfold zoneImageEdnsSizing
  cases metadata.edns <;> rfl

variable {question : Question}

/-- The response that copies the records of the RRset. -/
def directCopyBytes (header : Header) (question : Question) (rrset : ImageRrset)
    (metadata : RequestMetadata) (options : AnswerOptions) (udpCeiling : ℕ) : List UInt8 :=
  directZoneImageAnswerBytes header question
    ⟨UInt16.ofNat rrset.records.length, rrset.directAnswerRecords⟩ metadata options
    (zoneImageResponseSizing udpCeiling metadata options)

/-- A direct copy reads back as the records of the RRset under its TTL. -/
theorem directCopyBytes_reads (header : Header) (hquest : question.Parsed)
    {image : ZoneImage} (hbuilt : image.WellBuilt) (hmem : rrset ∈ image.rrsets)
    (hown : rrset.owner.lowerLabels = question.qname.lowerLabels)
    (htype : directCopyRdataType rrset.rrType = true)
    (hcount : rrset.records.length ≤ u16Max) (metadata : RequestMetadata) (options : AnswerOptions)
    (udpCeiling : ℕ) :
    MessageReads (directCopyBytes header question rrset metadata options udpCeiling)
      header.id (header.responseFlagsFromPlanBits (Rcode.noError.responseFlagBits true) false)
      question metadata (directRecords rrset) [] [] := by
  unfold directCopyBytes directZoneImageAnswerBytes
  rw [zoneImageResponseSizing, directAnswer_sectionCounts]
  generalize hpre : zoneImageResponsePrefix header _ false _ = start
  have hstart : start.length = dnsHeaderLen := by
    rw [← hpre]
    rfl
  have hname := encodeQuestion_wireNameAt question hstart
  have hqlen := hquest.length_encoded hstart
  have hsize : (labelsWire question.qname.labels).length + 1 ≤ 255 := by
    rw [question.qname.length_labelsWire_add_one]
    exact hquest.qname_fits
  have hcopied : ∀ record ∈ rrset.records, record.rdataEncoding.isCopy = true ∧
      record.rdata.length ≤ 65535 := by
    intro record hrec
    obtain ⟨hlen, hencoding⟩ := hbuilt.fits rrset hmem record hrec
    rw [hencoding]
    exact ⟨encoding_isCopy_of_direct htype _, hlen⟩
  have hread := directRecords_at hname hsize (by omega) hown rrset.fixedFields hcopied
  refine messageReads_of_chunk header hquest _ false metadata options udpCeiling
    ⟨by simpa [directRecords, u16Max] using hcount, by simp, by split <;> simp⟩ hpre ?_
  rw [append_nil, append_nil]
  exact hread

theorem ZoneImageRecordFixedFields.bytes_inj {left right : ZoneImageRecordFixedFields}
    (h : left.bytes = right.bytes) : left = right := by
  obtain ⟨hhead, httl⟩ := append_inj h rfl
  obtain ⟨htype, hclass⟩ := append_inj hhead rfl
  cases left
  cases right
  simp only [ZoneImageRecordFixedFields.mk.injEq]
  exact ⟨be16_inj htype, be16_inj hclass, be32_inj httl⟩

/-- What stands in a message fixes the type, class and TTL that are read, and
where the next record starts. -/
theorem RecordAt.fields_unique {otherNext : ℕ} {record other : ZoneImageWireRecord}
    (h : RecordAt packet pos record next) (hother : RecordAt packet pos other otherNext) :
    record.fixedFields = other.fixedFields ∧ next = otherNext := by
  obtain ⟨ownerLen, rdataLen, hsmall, hown, hfixed, -, rfl, -⟩ := h
  obtain ⟨otherOwnerLen, otherRdataLen, hotherSmall, hotherOwner, hotherFixed, -, rfl, -⟩ := hother
  obtain ⟨-, parsed, -, hparse, -⟩ := hown.parsed
  obtain ⟨-, otherParsed, -, hotherParse, -⟩ := hotherOwner.parsed
  obtain ⟨-, rfl⟩ := Prod.mk.inj (Except.ok.inj (hparse.symm.trans hotherParse))
  have hbytes := hfixed.unique hotherFixed (by simp)
  obtain ⟨hfields, hlen⟩ := append_inj hbytes (by simp)
  have hvalue := congrArg UInt16.toNat (be16_inj hlen)
  simp only [UInt16.toNat_ofNat'] at hvalue
  exact ⟨ZoneImageRecordFixedFields.bytes_inj hfields, by omega⟩

theorem RecordsAt.fields_unique {otherNext : ℕ} {records others : List ZoneImageWireRecord}
    (h : RecordsAt packet pos records next) (hother : RecordsAt packet pos others otherNext)
    (hlen : records.length = others.length) :
    records.map (·.fixedFields) = others.map (·.fixedFields) := by
  induction records generalizing others pos with
  | nil => simp [length_eq_zero_iff.mp hlen.symm]
  | cons record rest ih =>
    cases others with
    | nil => simp at hlen
    | cons other more =>
      obtain ⟨middle, hrec, hrest⟩ := h
      obtain ⟨otherMiddle, hotherRecord, hmore⟩ := hother
      obtain ⟨hfields, rfl⟩ := hrec.fields_unique hotherRecord
      rw [map_cons, map_cons, hfields, ih hrest hmore (by simpa using hlen)]

/-- The counts and the records' fields are what the bytes say. -/
theorem MessageReads.unique {bytes : List UInt8} {id flags otherFlags : UInt16}
    {metadata : RequestMetadata}
    {answers authorities additionals otherAnswers otherAuthorities otherAdditionals : List
      ZoneImageWireRecord}
    (h : MessageReads bytes id flags question metadata answers authorities additionals)
    (hother : MessageReads bytes id otherFlags question metadata otherAnswers otherAuthorities
      otherAdditionals) :
    answers.map (·.fixedFields) = otherAnswers.map (·.fixedFields) := by
  have hheader := h.header.unique hother.header (by simp [sectionCountHeaderBytes])
  obtain ⟨-, hsections⟩ := append_inj hheader (by simp)
  obtain ⟨hcounts, hadds⟩ := append_inj hsections (by simp)
  obtain ⟨hans, hauths⟩ := append_inj hcounts (by simp)
  obtain ⟨hfirst, hsecond, hthird⟩ := h.counts_fit
  obtain ⟨hotherFirst, hotherSecond, hotherThird⟩ := hother.counts_fit
  have hanswersLen := congrArg UInt16.toNat (be16_inj hans)
  have hauthoritiesLen := congrArg UInt16.toNat (be16_inj hauths)
  have hadditionalsLen := congrArg UInt16.toNat (be16_inj hadds)
  simp only [UInt16.toNat_ofNat'] at hanswersLen hauthoritiesLen hadditionalsLen
  obtain ⟨qnameLen, recordsEnd, hname, -, hrecs, -⟩ := h.body
  obtain ⟨otherQnameLen, otherRecordsEnd, hotherName, -, hotherRecords, -⟩ := hother.body
  rw [hname] at hotherName
  obtain rfl := (Prod.mk.inj (Except.ok.inj hotherName)).2
  have hfields := hrecs.fields_unique hotherRecords (by
    simp only [length_append]
    omega)
  simp only [map_append, append_assoc] at hfields
  exact (append_inj hfields (by
    simp only [length_map]
    omega)).1

/-- The arena holds what is read of an RRset from its place. -/
def RrsetWire.Holds (wire : List UInt8) (rrset : ImageRrset) (place : RrsetWire) : Prop :=
  match place.body with
  | .none => directCopyRdataType rrset.rrType = false
  | .records => directCopyRdataType rrset.rrType = true
  | .template len => directCopyRdataType rrset.rrType = true ∧
      len = rrset.directAnswerRecords.length ∧ place.offset + place.len ≤ wire.length ∧
      At wire (place.offset + place.len) rrset.directAnswerRecords

theorem RrsetWire.Holds.append {wire : List UInt8} {place : RrsetWire} (h : place.Holds wire rrset)
    (more : List UInt8) : place.Holds (wire ++ more) rrset := by
  unfold RrsetWire.Holds at h ⊢
  split at h
  · exact h
  · exact h
  · obtain ⟨htype, hlen, hbound, hat⟩ := h
    exact ⟨htype, hlen, hbound.trans (by simp), hat.append hbound more⟩

/-- One RRset is pushed: the arena grows, and the new place holds the RRset. -/
theorem pushRrsetWire_spec (arena : List UInt8 × List RrsetWire) (rrset : ImageRrset) :
    ∃ more place, pushRrsetWire arena rrset = (arena.1 ++ more, arena.2 ++ [place]) ∧
      place.Holds (arena.1 ++ more) rrset := by
  unfold pushRrsetWire pushDirectAnswerBody
  generalize (rrset.records.flatMap fun record => _) = records
  dsimp only
  split
  next hplain => exact ⟨records, _, rfl, by simpa [RrsetWire.Holds] using hplain⟩
  next heligible =>
    split
    · exact ⟨records, _, rfl, by simpa [RrsetWire.Holds] using heligible⟩
    · rw [flatMap_map]
      refine ⟨records ++ rrset.directAnswerRecords, _, by rw [← append_assoc]; rfl, ?_⟩
      refine ⟨by simpa using heligible, rfl, by simp, ?_⟩
      rw [← append_assoc, ← length_append]
      exact At.at_end _ _

theorem foldl_pushRrsetWire_holds (rrsets done : List ImageRrset)
    (arena : List UInt8 × List RrsetWire)
    (h : Forall₂ (fun rrset place => RrsetWire.Holds arena.1 rrset place) done arena.2) :
    Forall₂ (fun rrset place => RrsetWire.Holds (rrsets.foldl pushRrsetWire arena).1 rrset place)
      (done ++ rrsets) (rrsets.foldl pushRrsetWire arena).2 := by
  induction rrsets generalizing done arena with
  | nil => simpa using h
  | cons rrset rest ih =>
    obtain ⟨more, place, hpush, hplace⟩ := pushRrsetWire_spec arena rrset
    have hnext := ih (done ++ [rrset]) (arena.1 ++ more, arena.2 ++ [place])
      (rel_append (h.imp fun _ _ held => held.append more) (.cons hplace .nil))
    simpa [hpush] using hnext

/-- The template in the arena and the records one by one are the same body. -/
theorem directRrsetWire_eq (image : ZoneImage) (rrsetId : ℕ) :
    image.directRrsetWire rrsetId = image.rrsets[rrsetId]?.bind fun rrset =>
      if directCopyRdataType rrset.rrType = true ∧ rrset.records.length ≤ u16Max then
        some ⟨UInt16.ofNat rrset.records.length, rrset.directAnswerRecords⟩
      else none := by
  have hholds := foldl_pushRrsetWire_holds image.rrsets [] ([], []) .nil
  rw [nil_append, ← wireArena] at hholds
  unfold directRrsetWire
  cases hget : image.rrsets[rrsetId]? with
  | none => rfl
  | some rrset =>
    obtain ⟨hbound, rfl⟩ := List.getElem?_eq_some_iff.mp hget
    have hplace := hholds.get hbound (hholds.length_eq ▸ hbound)
    rw [List.getElem?_eq_getElem (hholds.length_eq ▸ hbound)]
    simp only [get_eq_getElem, RrsetWire.Holds] at hplace
    dsimp only [Option.bind_some]
    split at hplace
    next hbody => simp [hbody, hplace]
    next hbody => simp [hbody, hplace]
    next len hbody =>
      obtain ⟨htype, rfl, -, hat⟩ := hplace
      simp [hbody, htype, hat.take_drop]

/-- A record of the RRset has a TTL other than that of the RRset. -/
def ImageRrset.OwnTtls (rrset : ImageRrset) : Prop :=
  ∃ record ∈ rrset.records, recordFixedFields record rrset.fixedFields ≠ rrset.fixedFields

/-- The length of the OPT record of a datagram. -/
def optLen (metadata : RequestMetadata) (options : AnswerOptions) : ℕ :=
  metadata.edns.elim 0 fun edns =>
    11 + (ednsResponseBaseShape edns options metadata.extendedDnsError).rdataLen

/-- The length of a datagram with the records of the RRset behind its question. -/
def directCopyLen (question : Question) (rrset : ImageRrset) (metadata : RequestMetadata)
    (options : AnswerOptions) : ℕ :=
  dnsHeaderLen + (question.qname.wireLen + 4) +
    (rrset.records.map fun record => 12 + record.rdata.length).sum + optLen metadata options

/-- The RRset can be copied behind the question: its data holds no name that would be
compressed, its records can be counted, and the datagram is not too long. -/
structure DirectCopy (question : Question) (rrset : ImageRrset) (metadata : RequestMetadata)
    (options : AnswerOptions) (udpCeiling : ℕ) : Prop where
  rdata : directCopyRdataType rrset.rrType = true
  count : rrset.records.length ≤ u16Max
  fits : options.transport = .udp → directCopyLen question rrset metadata options ≤ udpCeiling

section Direct

variable {image : ZoneImage} {plan : ZoneImageLookupPlan} {header : Header} {question : Question}
  {metadata : RequestMetadata} {options : AnswerOptions} {udpCeiling : ℕ} {bytes : List UInt8}

theorem length_directAnswerRecords (rrset : ImageRrset) : rrset.directAnswerRecords.length =
    (rrset.records.map fun record => 12 + record.rdata.length).sum := by
  unfold ImageRrset.directAnswerRecords
  rw [length_flatMap]
  congr 1
  refine map_congr_left fun record _ => ?_
  simp only [directAnswerRecord, directAnswerRecordPrefix, length_append, length_be16,
    ZoneImageRecordFixedFields.length_bytes]

/-- A datagram is not padded. -/
theorem length_appendZoneImageResponseEdns (hudp : options.transport = .udp)
    (response : List UInt8) : (appendZoneImageResponseEdns response metadata options udpCeiling
      (zoneImageEdnsSizing metadata options)).length = response.length +
        optLen metadata options := by
  unfold appendZoneImageResponseEdns zoneImageEdnsSizing optLen
  cases metadata.edns with
  | none => rfl
  | some edns =>
    have hshape : ednsResponseOptionsShapeFromBase edns options
        (ednsResponseBaseShape edns options metadata.extendedDnsError) response.length udpCeiling =
          ⟨ednsResponseBaseShape edns options metadata.extendedDnsError, none⟩ := by
      rw [ednsResponseOptionsShapeFromBase, if_neg (by simp [hudp])]
    have hlen :=
      length_ednsResponseOptions edns options metadata.extendedDnsError response.length udpCeiling
    rw [hshape] at hlen
    simp only [encodeOptRecordWithBaseShape, hshape, length_append, hlen, Option.elim_some]
    simp
    omega

theorem length_directCopyBytes (hquest : question.Parsed)
    (hudp : options.transport = .udp) :
    (directCopyBytes header question rrset metadata options udpCeiling).length =
        directCopyLen question rrset metadata options := by
  unfold directCopyBytes directZoneImageAnswerBytes directCopyLen
  rw [zoneImageResponseSizing]
  dsimp only
  rw [length_appendZoneImageResponseEdns hudp, length_append, hquest.length_encoded rfl,
    length_directAnswerRecords, question.qname.length_labelsWire_add_one,
    Nat.add_assoc dnsHeaderLen]

/-- When a direct copy is made, and what it is. -/
theorem buildDirectZoneImageAnswerResponse_eq_some_iff (hquest : question.Parsed) :
    buildDirectZoneImageAnswerResponse header question image plan metadata options
        (zoneImageResponseSizing udpCeiling metadata options) = some bytes ↔
      plan.directAnswerCandidate = true ∧ ∃ rrsetId rrset, plan.answerRrsets = [rrsetId] ∧
        image.rrsets[rrsetId]? = some rrset ∧
        DirectCopy question rrset metadata options udpCeiling ∧
        bytes = directCopyBytes header question rrset metadata options udpCeiling := by
  unfold buildDirectZoneImageAnswerResponse
  constructor
  · intro h
    split at h
    next hcand =>
      split at h
      next rrsetId hans =>
        rw [directRrsetWire_eq] at h
        cases hget : image.rrsets[rrsetId]? with
        | none => simp [hget] at h
        | some rrset =>
          rw [hget, Option.bind_some] at h
          by_cases hcopied : directCopyRdataType rrset.rrType = true ∧ rrset.records.length ≤ u16Max
          · rw [if_pos hcopied] at h
            dsimp only at h
            split at h
            · simp at h
            next hshort =>
              refine ⟨hcand, rrsetId, rrset, hans, hget, ⟨hcopied.1, hcopied.2, ?_⟩,
                (Option.some.inj h).symm⟩
              intro hudp
              rw [← length_directCopyBytes hquest hudp]
              exact Nat.not_lt.mp fun hlong => hshort ⟨hudp, hlong⟩
          · simp [if_neg hcopied] at h
      · simp at h
    · simp at h
  · rintro ⟨hcand, rrsetId, rrset, hans, hget, hcopy, rfl⟩
    simp only [hcand, if_true, hans, directRrsetWire_eq, hget, Option.bind_some,
      if_pos (And.intro hcopy.rdata hcopy.count)]
    refine if_neg fun hlong => ?_
    have hfits := hcopy.fits hlong.1
    rw [← length_directCopyBytes hquest hlong.1] at hfits
    exact Nat.not_lt.mpr hfits hlong.2

theorem visitPlanAnswerRecords_direct (hitems : plan.answerItems = [])
    (hans : plan.answerRrsets = [rrsetId]) (hget : image.rrsets[rrsetId]? = some rrset) :
    image.visitPlanAnswerRecords plan = rrset.records.map fun record =>
      wireRecord rrset.owner.toWire (recordFixedFields record rrset.fixedFields) record := by
  simp [visitPlanAnswerRecords, hitems, hans, visitRrsetRecords,
    visitRrsetRecordsWithOwner, visitRrsetRecordsWithOwnerAndFixedFields, hget]

/-- The copy holds the answers of the plan unless a record has its own TTL. -/
theorem directRecords_fields_iff (hitems : plan.answerItems = [])
    (hans : plan.answerRrsets = [rrsetId]) (hget : image.rrsets[rrsetId]? = some rrset) :
    (directRecords rrset).map (·.fixedFields) =
        (image.visitPlanAnswerRecords plan).map (·.fixedFields) ↔ ¬ rrset.OwnTtls := by
  rw [visitPlanAnswerRecords_direct hitems hans hget]
  simp only [directRecords, map_map, ImageRrset.OwnTtls, not_exists, not_and, ne_eq, not_not]
  rw [map_inj_left]
  exact forall₂_congr fun record _ => eq_comm

theorem directRecords_eq (hitems : plan.answerItems = []) (hans : plan.answerRrsets = [rrsetId])
    (hget : image.rrsets[rrsetId]? = some rrset) (hown : ¬ rrset.OwnTtls) :
    directRecords rrset = image.visitPlanAnswerRecords plan := by
  rw [visitPlanAnswerRecords_direct hitems hans hget]
  refine map_congr_left fun record hrec => ?_
  have hsame : recordFixedFields record rrset.fixedFields = rrset.fixedFields := by
    by_contra hdiffers
    exact hown ⟨record, hrec, hdiffers⟩
  rw [hsame]

/-- The RRset that is copied is the one of the question's name. -/
theorem ZoneImageLookupPlan.DirectShape.owner_eq {qname : DomainName}
    (h : plan.DirectShape image qname) (hans : plan.answerRrsets = [rrsetId])
    (hget : image.rrsets[rrsetId]? = some rrset) : rrset.owner.lowerLabels = qname.lowerLabels := by
  obtain ⟨otherId, other, hotherAnswers, hotherGet, hown⟩ := h.answer
  obtain rfl : rrsetId = otherId := List.singleton_injective (hans.symm.trans hotherAnswers)
  obtain rfl : rrset = other := Option.some.inj (hget.symm.trans hotherGet)
  exact hown

/-- A direct copy keeps the contract exactly when no record has its own TTL. -/
theorem directAnswer_honest_iff (header : Header) (hquest : question.Parsed)
    (hbuilt : image.WellBuilt) (hsound : plan.Sound image question.qname)
    (hudp : options.transport = .udp) (hcand : plan.directAnswerCandidate = true)
    (hans : plan.answerRrsets = [rrsetId]) (hget : image.rrsets[rrsetId]? = some rrset)
    (hcopy : DirectCopy question rrset metadata options udpCeiling) :
    KeepsDatagramContract image plan header.id question metadata udpCeiling
      (directCopyBytes header question rrset metadata options udpCeiling) ↔ ¬ rrset.OwnTtls := by
  have hshape := hsound.direct hcand
  have hreads := directCopyBytes_reads header hquest hbuilt (mem_of_getElem? hget)
    (hshape.owner_eq hans hget) hcopy.rdata hcopy.count metadata options udpCeiling
  constructor
  · rintro ⟨flags, answers, authorities, additionals, hhonest⟩
    rw [← directRecords_fields_iff hshape.items_nil hans hget]
    have hfields := hreads.unique hhonest.reads
    have hlen : (image.visitPlanAnswerRecords plan).length = (directRecords rrset).length := by
      rw [visitPlanAnswerRecords_direct hshape.items_nil hans hget]
      simp [directRecords]
    have hall : answers = image.visitPlanAnswerRecords plan := by
      refine hhonest.answers_first.eq_of_length ?_
      have := congrArg List.length hfields
      simp only [length_map] at this
      omega
    rw [hfields, hall]
  · intro hown
    obtain ⟨hauths, hadds⟩ := hshape.sections
    rw [directRecords_eq hshape.items_nil hans hget hown] at hreads
    have hfits := hcopy.fits hudp
    rw [← length_directCopyBytes hquest hudp] at hfits
    refine ⟨_, _, [], [], hreads, Or.inl hfits, prefix_refl _, nil_sublist _, ?_, ?_⟩
    · exact .nil _
    · rw [responseFlags_tc]
      simp [hauths, hadds]

end Direct

/-- Over UDP a response keeps the contract unless it is a direct copy of an
RRset with a record that has its own TTL. -/
theorem buildZoneImageResponse_keepsContract_iff {packet : List UInt8} {question : Question}
    (hquestion : Question.parse packet = .ok question) {origin : DomainName}
    {serial : Option UInt32} {rrsets : List Rrset} (hrrsets : ∀ rrset ∈ rrsets, rrset.FromTransfer)
    {image : ZoneImage} (himage : compileRrsets origin serial rrsets = .ok image)
    {plan : ZoneImageLookupPlan} (hplan : image.MakesPlan question.qname plan) (header : Header)
    (metadata : RequestMetadata) (options : AnswerOptions) (hudp : options.transport = .udp)
    (allowDirectAnswer : Bool) (udpCeiling : ℕ) {bytes : List UInt8}
    (hbytes : buildZoneImageResponse header question image plan metadata options allowDirectAnswer
      (zoneImageResponseSizing udpCeiling metadata options) = some bytes) :
    KeepsDatagramContract image plan header.id question metadata udpCeiling bytes ↔
      ¬ (allowDirectAnswer = true ∧ plan.directAnswerCandidate = true ∧
        ∃ rrsetId rrset, plan.answerRrsets = [rrsetId] ∧ image.rrsets[rrsetId]? = some rrset ∧
          DirectCopy question rrset metadata options udpCeiling ∧ rrset.OwnTtls) := by
  have hparsed := Question.parse_parsed hquestion
  have hbuilt := compileRrsets_wellBuilt himage
  have hsound := hplan.sound hbuilt hparsed.qname_fits
  have hfit := compileRrsets_recordsFit hrrsets himage
  unfold buildZoneImageResponse at hbytes
  split at hbytes
  next response hdirect =>
    obtain rfl := Option.some.inj hbytes
    split at hdirect
    next hallow =>
      obtain ⟨hcandidate, rrsetId, rrset, hanswers, hget, hcopy, rfl⟩ :=
        (buildDirectZoneImageAnswerResponse_eq_some_iff hparsed).mp hdirect
      rw [directAnswer_honest_iff header hparsed hbuilt hsound hudp hcandidate hanswers hget hcopy]
      simp [hallow, hcandidate, hanswers, hget, hcopy]
    · simp at hdirect
  next hdirect =>
    have hno : ¬ (allowDirectAnswer = true ∧ plan.directAnswerCandidate = true ∧
        ∃ rrsetId rrset, plan.answerRrsets = [rrsetId] ∧ image.rrsets[rrsetId]? = some rrset ∧
          DirectCopy question rrset metadata options udpCeiling ∧ rrset.OwnTtls) := by
      rintro ⟨hallow, hcandidate, rrsetId, rrset, hanswers, hget, hcopy, -⟩
      rw [if_pos hallow, (buildDirectZoneImageAnswerResponse_eq_some_iff hparsed).mpr
        ⟨hcandidate, rrsetId, rrset, hanswers, hget, hcopy, rfl⟩] at hdirect
      cases hdirect
    simp only [hno, not_false_iff, iff_true]
    exact buildPlannedZoneImageResponse_honest hparsed hsound hfit hudp hbytes

private def signedOwner : DomainName := ⟨[[115]], by decide⟩

private def signedQuery : List UInt8 :=
  [0, 7, 0, 0, 0, 1, 0, 0, 0, 0, 0, 0, 1, 115, 0, 0, 46, 0, 1]

private def signedQuestion : Question := ⟨signedOwner, 46, 1, 3, [0, 46, 0, 1], true⟩

private def signatureOver (typeCovered originalTtl : UInt8) : Rdata :=
  [0, typeCovered, 8, 1, 0, 0, originalTtl, 0, 0, 0, 0, 2, 0, 0, 0, 1, 0, 9, 1, 115, 0, 1]

/-- An owner whose two address RRsets are cached for different times, and their
signatures. -/
private def signedRrsets : List Rrset :=
  [⟨signedOwner, RecordType.a, classIn, 256, [[192, 0, 2, 1]]⟩,
    ⟨signedOwner, aaaa, classIn, 512, [[32, 1, 13, 184, 0, 0, 0, 0, 0, 0, 0, 0, 0, 0, 0, 1]]⟩,
    ⟨signedOwner, rrsig, classIn, 256, [signatureOver 1 1, signatureOver 28 2]⟩]

private def signedRequest : RequestMetadata := ⟨none, 0, none⟩

private def signedOptions : AnswerOptions := ⟨.udp, 1232, 0, 0, .off, [], none⟩

private theorem signedQuery_parse : Question.parse signedQuery = .ok signedQuestion := by
  decide +kernel

private theorem signedRrsets_fromTransfer : ∀ rrset ∈ signedRrsets, rrset.FromTransfer := by
  intro rrset hrrset
  simp only [signedRrsets, mem_cons, not_mem_nil, or_false] at hrrset
  rcases hrrset with rfl | rfl | rfl <;> refine ⟨by decide, ?_⟩ <;>
    intro rdata _ offset len hoffset <;>
    simp [compressibleNameOffset, RecordType.a, aaaa, rrsig, ns, cname, ptr, mx] at hoffset

private theorem signedOwner_hint : signedOwner.LowercaseHint true := fun _ => by decide

/-- The signature of the longer-lived RRset is sent with the TTL of the shorter. -/
theorem directAnswer_loses_signature_ttl :
    ∃ image bytes, compileRrsets signedOwner none signedRrsets = .ok image ∧
      buildZoneImageResponse ⟨7, 0⟩ signedQuestion image
        (image.lookupResponsePlan signedOwner 46 1 8 .minimal true) signedRequest signedOptions true
        (zoneImageResponseSizing 512 signedRequest signedOptions) = some bytes ∧
      ¬ KeepsDatagramContract image (image.lookupResponsePlan signedOwner 46 1 8 .minimal true) 7
        signedQuestion signedRequest 512 bytes := by
  have hcompile : ∃ image rrset, compileRrsets signedOwner none signedRrsets = .ok image ∧
      (image.lookupResponsePlan signedOwner 46 1 8 .minimal true).directAnswerCandidate = true ∧
      (image.lookupResponsePlan signedOwner 46 1 8 .minimal true).answerRrsets = [2] ∧
      image.rrsets[2]? = some rrset ∧
      DirectCopy signedQuestion rrset signedRequest signedOptions 512 ∧ rrset.OwnTtls := by
    exact ⟨_, _, rfl, by decide, by decide, rfl, ⟨by decide, by decide, fun _ => by decide⟩,
      _, mem_cons_of_mem _ mem_cons_self, by decide⟩
  obtain ⟨image, rrset, himage, hcandidate, hanswers, hget, hcopy, hown⟩ := hcompile
  have hparsed := Question.parse_parsed signedQuery_parse
  have hbuilt := compileRrsets_wellBuilt himage
  have hsound := lookupResponsePlan_sound hbuilt hparsed.qname_fits signedOwner_hint
    46 1 8 .minimal
  have hiff := directAnswer_honest_iff ⟨7, 0⟩ hparsed hbuilt hsound rfl hcandidate hanswers
    hget hcopy
  refine ⟨image, _, himage, ?_, fun hkeeps => hiff.mp hkeeps hown⟩
  rw [buildZoneImageResponse, if_pos rfl,
    (buildDirectZoneImageAnswerResponse_eq_some_iff hparsed).mpr
    ⟨hcandidate, 2, rrset, hanswers, hget, hcopy, rfl⟩]

/-- The same question without the direct copy. -/
theorem plannedAnswer_keepsContract :
    ∃ image bytes, compileRrsets signedOwner none signedRrsets = .ok image ∧
      buildZoneImageResponse ⟨7, 0⟩ signedQuestion image
        (image.lookupResponsePlan signedOwner 46 1 8 .minimal true) signedRequest signedOptions
        false (zoneImageResponseSizing 512 signedRequest signedOptions) = some bytes ∧
      KeepsDatagramContract image (image.lookupResponsePlan signedOwner 46 1 8 .minimal true) 7
        signedQuestion signedRequest 512 bytes := by
  have hcompile : ∃ image, compileRrsets signedOwner none signedRrsets = .ok image ∧
      (buildZoneImageResponse ⟨7, 0⟩ signedQuestion image
        (image.lookupResponsePlan signedOwner 46 1 8 .minimal true) signedRequest signedOptions
        false (zoneImageResponseSizing 512 signedRequest signedOptions)).isSome = true :=
    ⟨_, rfl, by decide⟩
  obtain ⟨image, himage, hsome⟩ := hcompile
  obtain ⟨bytes, hbytes⟩ := Option.isSome_iff_exists.mp hsome
  have hiff := buildZoneImageResponse_keepsContract_iff signedQuery_parse signedRrsets_fromTransfer
    himage (.response 46 1 8 .minimal signedOwner_hint) ⟨7, 0⟩ signedRequest signedOptions rfl
    false 512 hbytes
  exact ⟨image, bytes, himage, hbytes, hiff.mpr (by simp)⟩

end BoronDns
