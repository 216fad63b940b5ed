import BoronDns.PlanResponse
import BoronDns.RecordDecoding

/-!
What a plan notes about the records it stands for: their numbers, whether they can
be counted in a header, and a bound on their octets. The bound is that of the records
written without compression, and the writer never takes more, whatever names it has
met before.
-/

namespace BoronDns

open ZoneImageWireRecord List ZoneImage
open ZoneImageBuilder (imageRrset sortRdatas)

namespace WireNameCompressor

/-- A pointer takes the place of more than two octets. -/
theorem wireNameWritePlanLoop_length {compressor : WireNameCompressor} {wireName : List UInt8}
    {checkFullSuffix : Bool} {cursor : ℕ} {pointerSuffix : Option (ℕ × UInt16)} {writeEnd : ℕ}
    {pointer : Option (ℕ × UInt16)}
    (h : compressor.wireNameWritePlanLoop wireName checkFullSuffix cursor pointerSuffix =
      some (writeEnd, pointer))
    (hstart : ∀ found ∈ pointerSuffix, found.1 + 2 < wireName.length) :
    writeEnd + (if pointer.isSome then 2 else 1) ≤ wireName.length := by
  fun_induction wireNameWritePlanLoop compressor wireName checkFullSuffix cursor pointerSuffix with
  | case1 => cases h
  | case2 => cases h
  | case3 => cases h
  | case4 cursor pointerSuffix hend =>
    obtain ⟨rfl, rfl⟩ := Prod.mk.inj (Option.some.inj h)
    cases pointerSuffix with
    | none =>
      simp only [Option.elim_none, Option.isSome_none, Bool.false_eq_true, if_false]
      omega
    | some found =>
      have := hstart found rfl
      simp only [Option.elim_some, Option.isSome_some, if_true]
      omega
  | case5 => cases h
  | case6 cursor pointerSuffix len hlen hfit hzero next hend ih =>
    refine ih h ?_
    intro found hfound
    simp only [next] at hfound
    split at hfound
    next hguard =>
      obtain ⟨offset, -, rfl⟩ := Option.map_eq_some_iff.mp hfound
      have := hguard.2.2
      omega
    · exact hstart found hfound

theorem length_nameChunk_le (compressor : WireNameCompressor) (wireName : List UInt8) :
    (compressor.nameChunk wireName).length ≤ wireName.length := by
  have hpointer : ∀ offset, (pointerBytes offset).length = 2 := fun _ => rfl
  unfold nameChunk writeWireName
  split
  next offset hoffset =>
    split at hoffset
    next hlong =>
      simp only [nil_append, hpointer]
      omega
    · cases hoffset
  · split
    · simp
    next writeEnd pointer hplan =>
      have hlen := wireNameWritePlanLoop_length hplan (by simp)
      cases pointer with
      | none =>
        simp only [Option.isSome_none, Bool.false_eq_true, if_false] at hlen
        simp
        omega
      | some found =>
        simp only [Option.isSome_some, if_true] at hlen
        simp [hpointer]
        omega

end WireNameCompressor

/-- What a part of the writer appends is no longer than the octets it stands for. -/
def AppendsAtMost (limit : ℕ) (response out : List UInt8) : Prop :=
  ∃ chunk, out = response ++ chunk ∧ chunk.length ≤ limit

theorem AppendsAtMost.trans {first second : ℕ} {response middle out : List UInt8}
    (h : AppendsAtMost first response middle) (hnext : AppendsAtMost second middle out) :
    AppendsAtMost (first + second) response out := by
  obtain ⟨chunk, rfl, hchunk⟩ := h
  obtain ⟨next, rfl, hnext⟩ := hnext
  refine ⟨chunk ++ next, by rw [append_assoc], ?_⟩
  rw [length_append]
  omega

theorem appendsAtMost_append (response chunk : List UInt8) :
    AppendsAtMost chunk.length response (response ++ chunk) := ⟨chunk, rfl, le_rfl⟩

theorem appendsAtMost_writeWireName (compressor : WireNameCompressor)
    (wireName response : List UInt8) :
    AppendsAtMost wireName.length response (compressor.writeWireName wireName response).2 := by
  rw [WireNameCompressor.writeWireName_eq]
  exact ⟨_, rfl, compressor.length_nameChunk_le wireName⟩

theorem appendsAtMost_rdata (encoding : PackedRdataEncoding) (rdata : Rdata) (response : List UInt8)
    (compressor : WireNameCompressor) :
    AppendsAtMost rdata.length response
      (encodeZoneImageWireRecordRdata encoding rdata response compressor).1 := by
  unfold encodeZoneImageWireRecordRdata
  split
  · exact appendsAtMost_append response rdata
  split
  · exact appendsAtMost_writeWireName compressor rdata response
  split
  next mnameLen rnameLen _ =>
    have hmname := appendsAtMost_writeWireName compressor (rdata.take mnameLen.toNat) response
    dsimp only
    generalize compressor.writeWireName (rdata.take mnameLen.toNat) response =
      afterMname at hmname ⊢
    obtain ⟨compressor, response⟩ := afterMname
    have hrname := appendsAtMost_writeWireName compressor
      ((rdata.drop mnameLen.toNat).take rnameLen.toNat) response
    have hall :=
      (hmname.trans hrname).trans
        (appendsAtMost_append _ (rdata.drop (mnameLen.toNat + rnameLen.toNat)))
    have hsum : (rdata.take mnameLen.toNat).length +
        ((rdata.drop mnameLen.toNat).take rnameLen.toNat).length +
        (rdata.drop (mnameLen.toNat + rnameLen.toNat)).length = rdata.length := by
      simp only [length_take, length_drop]
      omega
    rw [hsum] at hall
    exact hall
  · split
    · have hpreference := (appendsAtMost_append response (rdata.take 2)).trans
        (appendsAtMost_writeWireName compressor (rdata.drop 2) _)
      rw [← length_append, take_append_drop] at hpreference
      exact hpreference
    · exact ⟨[], by simp, by simp⟩

theorem appendsAtMost_record (record : ZoneImageWireRecord) (response : List UInt8)
    (compressor : WireNameCompressor) :
    AppendsAtMost record.octets response
      (encodeZoneImageWireRecord record response compressor).1 := by
  have hown := appendsAtMost_writeWireName compressor record.ownerWire response
  unfold encodeZoneImageWireRecord
  generalize compressor.writeWireName record.ownerWire response = afterOwner at hown
  obtain ⟨compressor, written⟩ := afterOwner
  have hfixed := hown.trans (appendsAtMost_append _ record.fixedFields.bytes)
  dsimp only
  split
  · have hall := (hfixed.trans (appendsAtMost_append _ (Bytes.be16 record.rdlength))).trans
      (appendsAtMost_append _ record.rdata)
    exact hall
  · obtain ⟨chunk, hchunk, hle⟩ := appendsAtMost_rdata record.rdataEncoding record.rdata
      (written ++ record.fixedFields.bytes ++ Bytes.be16 0) compressor
    rw [hchunk, putBe16_append]
    have hall := (hfixed.trans (appendsAtMost_append _ (Bytes.be16 (UInt16.ofNat
      ((written ++ record.fixedFields.bytes ++ Bytes.be16 0 ++ chunk).length -
        (written ++ record.fixedFields.bytes ++ Bytes.be16 0).length))))).trans ⟨chunk, rfl, hle⟩
    exact hall

variable (records : List ZoneImageWireRecord)

/-- The octets of several records without compression. -/
def totalOctets : ℕ := (records.map octets).sum

/-- The writer takes no more octets than the records have uncompressed. -/
theorem appendsAtMost_records (response : List UInt8)
    (compressor : WireNameCompressor) :
    AppendsAtMost (totalOctets records) response
      (encodeZoneImageWireRecords records response compressor).1 := by
  induction records generalizing response compressor with
  | nil => exact ⟨[], by simp [encodeZoneImageWireRecords], le_rfl⟩
  | cons record rest ih => exact (appendsAtMost_record record response compressor).trans (ih _ _)

/-- What a plan notes about the records it stands for. The counts and the bound are `u32` values
that saturate. -/
structure ZoneImageLookupPlan.AccountsRecords (image : ZoneImage) (plan : ZoneImageLookupPlan) :
    Prop where
  answer_count : plan.answerRecordCount = min (image.visitPlanAnswerRecords plan).length u32Max
  authority_count : plan.authorityRecordCount =
    min (image.visitPlanAuthorityRecords plan).length u32Max
  additional_count : plan.additionalRecordCount =
    min (image.visitPlanAdditionalRecords plan).length u32Max
  shape_none : plan.responseShape = none ↔
    u16Max < (image.visitPlanAnswerRecords plan).length ∨
      u16Max < (image.visitPlanAuthorityRecords plan).length ∨
      u16Max < (image.visitPlanAdditionalRecords plan).length
  body_bound : min (totalOctets (image.visitPlanRecords plan)) u32Max ≤ plan.bodyWireUpperBound
  encoded_bound : ∀ response compressor, ∃ body,
    (encodeZoneImageWireRecords (image.visitPlanRecords plan) response compressor).1 =
      response ++ body ∧ body.length ≤ totalOctets (image.visitPlanRecords plan) ∧
      min body.length u32Max ≤ plan.bodyWireUpperBound

/-- Every plan an image makes, augmented or not, counts the records it stands for, has a response
shape unless a section is too long to be counted, and bounds their octets and with them the body
that is written. Counts and bound saturate at the largest `u32`. -/
theorem ZoneImage.MakesPlan.accountsRecords {origin : DomainName} {serial : Option UInt32}
    {rrsets : List Rrset} {image : ZoneImage}
    (himage : compileRrsets origin serial rrsets = .ok image) {qname : DomainName}
    (hqname : qname.wireLen ≤ 255) {plan : ZoneImageLookupPlan}
    (hplan : image.MakesPlan qname plan) : plan.AccountsRecords image := by
  have hbuilt := compileRrsets_wellBuilt himage
  have hsound := hplan.sound hbuilt hqname
  have hbound : min (totalOctets (image.visitPlanRecords plan)) u32Max =
      plan.bodyWireUpperBound := by
    rw [hsound.body_bound, totalOctets, visitPlanRecords, map_append, map_append, sum_append,
      sum_append]
    rfl
  refine ⟨?_, ?_, ?_, ?_, hbound.le, ?_⟩
  · rw [hsound.answer_count, ZoneImageLookupPlan.answerSizes, length_map]
  · rw [hsound.authority_count, ZoneImageLookupPlan.authoritySizes, length_map]
  · rw [hsound.additional_count, ZoneImageLookupPlan.additionalSizes, length_map]
  · have hshape := hsound.responseShape_isSome
    unfold ZoneImageLookupPlan.SectionsFit at hshape
    rw [← Option.not_isSome_iff_eq_none, hshape]
    omega
  · intro response compressor
    obtain ⟨body, hbody, hlength⟩ :=
      appendsAtMost_records (image.visitPlanRecords plan) response compressor
    exact ⟨body, hbody, hlength, by omega⟩

private def textApex : DomainName := ⟨[[120]], by decide⟩

private def textSignature : Rdata :=
  [0, 16, 8, 1, 0, 0, 1, 44, 0, 0, 0, 2, 0, 0, 0, 1, 0, 1, 1, 120, 0, 9]

private def textRrsets : List Rrset :=
  [⟨textApex, RecordType.txt, 1, 300, [[1, 65], [1, 66]]⟩, ⟨textApex, RecordType.rrsig, 1, 300,
    [textSignature]⟩]

/-- Two strings at the apex of a signed zone are looked up, and the augmentation adds their
signature. -/
theorem accountsRecords_signedStrings : ∃ image plan augmented,
    compileRrsets textApex none textRrsets = .ok image ∧
      image.lookupExactPlan textApex 16 1 = .found plan ∧
      image.augmentLookupPlanWithDnssec (fun _ => []) plan textApex 1 0 true = augmented ∧
      plan.answerRecordCount = 2 ∧ augmented.answerRecordCount = 3 ∧
      augmented.AccountsRecords image := by
  obtain ⟨image, plan, himage, hplan, htwo, hthree⟩ : ∃ image plan,
      compileRrsets textApex none textRrsets = .ok image ∧
      image.lookupExactPlan textApex 16 1 = .found plan ∧ plan.answerRecordCount = 2 ∧
      (image.augmentLookupPlanWithDnssec (fun _ => []) plan textApex 1 0 true).answerRecordCount =
      3 :=
    ⟨_, _, rfl, rfl, by decide +kernel, by decide +kernel⟩
  exact ⟨image, plan, _, himage, hplan, rfl, htwo, hthree,
    MakesPlan.accountsRecords himage (by decide) (.augmented _ (.exact hplan) _ _ _ _)⟩

section Saturation

private def crowdedName : DomainName :=
  ⟨[List.replicate 63 97, List.replicate 63 98, List.replicate 63 99, List.replicate 61 100],
    by decide⟩

variable (rdatas : List Rdata)

private def crowdedRrset : Rrset := ⟨crowdedName, 16, 1, 300, rdatas⟩

private def crowdedImage : ZoneImage :=
  let rrsets := [imageRrset [crowdedRrset rdatas] (crowdedRrset rdatas)]
  { origin := crowdedName
    serial := none
    rrsets
    nodes := ZoneImageBuilder.materialiseNodes rrsets
      (ZoneImageBuilder.buildNodes crowdedName rrsets) }

private theorem crowded_compiles {rdatas : List Rdata}
    (h : ∀ rdata ∈ rdatas, rdata.length ≤ 65535) :
    compileRrsets crowdedName none [crowdedRrset rdatas] = .ok (crowdedImage rdatas) := by
  have hinside : ([crowdedRrset rdatas].find? fun rrset =>
      !rrset.owner.isEqualOrSubdomainOf crowdedName) = none := by
    rw [List.find?_eq_none]
    intro rrset hrrset
    rw [mem_singleton.mp hrrset]
    have hself : crowdedName.isEqualOrSubdomainOf crowdedName = true := by decide +kernel
    simpa [crowdedRrset] using hself
  have hlen : ([crowdedRrset rdatas].any fun rrset => rrset.rdatas.any fun rdata =>
      65535 < rdata.length) = false := by
    simpa [crowdedRrset] using h
  rw [compileRrsets, hinside]
  rw [hlen]
  rfl

private theorem crowded_found : (crowdedImage rdatas).lookupExactPlan crowdedName 16 1 =
      .found ((crowdedImage rdatas).pushAnswerRrsetToPlan .positive 0) := by
  rfl

private theorem crowded_sizes : ((crowdedImage rdatas).visitPlanRecords
      ((crowdedImage rdatas).pushAnswerRrsetToPlan .positive 0)).map octets =
        (sortRdatas rdatas).map fun rdata => 265 + rdata.length := by
  have hown : crowdedName.toWire.length = 255 := by decide +kernel
  have hget : (crowdedImage rdatas).rrsets[0]? =
      some (imageRrset [crowdedRrset rdatas] (crowdedRrset rdatas)) := rfl
  have hvisit : (crowdedImage rdatas).visitPlanRecords
      ((crowdedImage rdatas).pushAnswerRrsetToPlan .positive 0) =
      (crowdedImage rdatas).visitRrsetRecords 0 := by
    simp [visitPlanRecords, visitPlanAnswerRecords,
      visitPlanAuthorityRecords, visitPlanAuthorityRecordsWithRemovability,
      visitAuthorityRrsets, visitPlanAdditionalRecords,
      pushAnswerRrsetToPlan, ZoneImageLookupPlan.pushAnswerRrset,
      ZoneImageLookupPlan.positive]
  rw [hvisit, visitRrsetRecords, hget]
  dsimp only
  rw [visitRrsetRecordsWithOwner, hget]
  dsimp only
  rw [visitRrset_spec hget, imageRrset, map_map, map_map]
  refine map_congr_left fun rdata _ => ?_
  show crowdedName.toWire.length + 10 + rdata.length = 265 + rdata.length
  rw [hown]

private theorem crowded_short (hcount : rdatas.length = 65800)
    (hlen : ∀ rdata ∈ rdatas, rdata.length = 65258) :
    ∃ origin rrsets image plan, compileRrsets origin none rrsets = .ok image ∧
      image.MakesPlan origin plan ∧
      (∀ record ∈ image.visitPlanRecords plan, dnsHeaderLen + octets record ≤ 65535) ∧
      plan.bodyWireUpperBound < totalOctets (image.visitPlanRecords plan) := by
  have himage : compileRrsets crowdedName none [crowdedRrset rdatas] =
      .ok (crowdedImage rdatas) := crowded_compiles fun rdata hrdata => by
    rw [hlen rdata hrdata]
    decide
  have hplan : (crowdedImage rdatas).MakesPlan crowdedName
      ((crowdedImage rdatas).pushAnswerRrsetToPlan .positive 0) := .exact (crowded_found rdatas)
  have hname : crowdedName.wireLen ≤ 255 := by decide +kernel
  have hsound := hplan.sound (compileRrsets_wellBuilt himage) hname
  have hsizes := crowded_sizes rdatas
  have hnumber : (sortRdatas rdatas).length = 65800 :=
    (length_insertionSort _ _).trans hcount
  have heach : ∀ octets ∈ (sortRdatas rdatas).map (fun rdata => 265 + rdata.length),
      octets = 65523 := by
    intro octets hoctets
    obtain ⟨rdata, hrdata, rfl⟩ := mem_map.mp hoctets
    rw [hlen rdata (mem_sortRdatas.mp hrdata)]
  refine ⟨crowdedName, _, _, _, himage, hplan, fun record hrec => ?_, ?_⟩
  · have hoctets := heach (octets record) (hsizes ▸ mem_map_of_mem hrec)
    rw [hoctets]
    decide
  · rw [totalOctets, hsizes, sum_eq_card_nsmul _ _ heach, length_map, hnumber, hsound.body_bound]
    exact lt_of_le_of_lt (min_le_right _ _) (by decide)

/-- A numbered text of 254 strings of 255 octets and one of 233. -/
private def crowdedText (i : ℕ) : Rdata :=
  (List.replicate 254 (255 :: List.replicate 255 0)).flatten ++
    233 :: (Bytes.be32 (UInt32.ofNat i) ++ List.replicate 229 0)

/-- 65800 texts of 65258 octets under a name of 255 octets, each of which fits a message, have
more octets than a `u32` holds, so the bound is short of them. -/
theorem crowdedBound_short : ∃ origin rrsets image plan,
    compileRrsets origin none rrsets = .ok image ∧ image.MakesPlan origin plan ∧
      (∀ record ∈ image.visitPlanRecords plan, dnsHeaderLen + octets record ≤ 65535) ∧
      plan.bodyWireUpperBound < totalOctets (image.visitPlanRecords plan) := by
  refine crowded_short ((List.range 65800).map crowdedText) ?_ ?_
  · rw [length_map, length_range]
  · intro rdata hrdata
    obtain ⟨i, -, rfl⟩ := mem_map.mp hrdata
    have hindex : (Bytes.be32 (UInt32.ofNat i)).length = 4 := rfl
    rw [crowdedText, length_append, length_cons, length_append, length_replicate, hindex,
      length_flatten, map_replicate, sum_replicate, length_cons, length_replicate]
    rfl

end Saturation

end BoronDns
