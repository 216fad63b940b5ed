import BoronDns.PlanResponse
import Mathlib.Data.List.DropRight

/-!
Responses that have to fit in a datagram. A plan with one RRset may be answered
by copying that RRset behind the question. Any other response that is too long
is built again and again, with fewer records each time: first the additional
RRsets go, from the last one, then the authority records that may be removed,
then the answers and at the end what is left of the authorities. The counts of
the header are kept beside the record lists.
-/

namespace BoronDns

open Bytes List Option RecordType

/-- `direct_copy_rdata_type`: types whose data holds no compressible name, less
those that are never in a zone. -/
def directCopyRdataType (rrType : UInt16) : Bool :=
  rrType != ns && rrType != cname && rrType != ptr &&
    rrType != soa && rrType != mx && rrType != opt &&
    rrType != tkey && rrType != tsig && rrType != ixfr &&
    rrType != axfr

variable (header : Header) (question : Question) (image : ZoneImage) (plan : ZoneImageLookupPlan)
  (metadata : RequestMetadata) (options : AnswerOptions) (fixedFields : ZoneImageRecordFixedFields)

/-- `direct_answer_record_prefix`: the owner is a pointer to the question. -/
def directAnswerRecordPrefix : List UInt8 :=
  be16 0xc00c ++ fixedFields.bytes

def directAnswerRecord (rdata : Rdata) : List UInt8 :=
  directAnswerRecordPrefix fixedFields ++ be16 (UInt16.ofNat rdata.length) ++ rdata

/-- The records of an RRset as a direct answer holds them. -/
def ImageRrset.directAnswerRecords (rrset : ImageRrset) : List UInt8 :=
  rrset.records.flatMap fun record => directAnswerRecord rrset.fixedFields record.rdata

/-- How an RRset gets into a direct answer: not at all, record by record, or from a body that was
laid out when the image was built. The source writes the first two as the lengths 0 and `u32::MAX`.
-/
inductive DirectAnswerBody
  | none
  | records
  | template (len : ℕ)

def pushDirectAnswerBody (wire : List UInt8) (directCopyEligible : Bool)
    (fixedFields : ZoneImageRecordFixedFields) (rdatas : List Rdata) :
    List UInt8 × DirectAnswerBody :=
  if !directCopyEligible then
    (wire, .none)
  else if rdatas.length ≤ 1 ∨ u16Max < rdatas.length then
    (wire, .records)
  else
    let body := rdatas.flatMap (directAnswerRecord fixedFields)
    (wire ++ body, .template body.length)

/-- Where the records of an RRset stand in the wire arena. A body that was laid out stands behind
them. -/
structure RrsetWire where
  offset : ℕ
  len : ℕ
  body : DirectAnswerBody

/-- What `push_rrset` does to the wire arena. -/
def pushRrsetWire (arena : List UInt8 × List RrsetWire) (rrset : ImageRrset) :
    List UInt8 × List RrsetWire :=
  let records := rrset.records.flatMap fun record =>
    rrset.owner.toWire ++ (ZoneImage.recordFixedFields record rrset.fixedFields).bytes ++
      be16 (UInt16.ofNat record.rdata.length) ++ record.rdata
  let (wire, body) := pushDirectAnswerBody (arena.1 ++ records) (directCopyRdataType rrset.rrType)
    rrset.fixedFields (rrset.records.map ImageRecord.rdata)
  (wire, arena.2 ++ [⟨arena.1.length, records.length, body⟩])

/-- The arena after all RRsets of the image have been pushed. -/
def ZoneImage.wireArena : List UInt8 × List RrsetWire :=
  image.rrsets.foldl pushRrsetWire ([], [])

structure ZoneImageDirectRrset where
  recordCount : UInt16
  body : List UInt8

def ZoneImageDirectRrset.sectionCountHeaderBytes (direct : ZoneImageDirectRrset) (edns : Bool) :
    List UInt8 :=
  BoronDns.sectionCountHeaderBytes direct.recordCount 0 (if edns then 1 else 0)

def ZoneImage.directRrsetWire (rrsetId : ℕ) : Option ZoneImageDirectRrset :=
  match image.rrsets[rrsetId]?, image.wireArena.2[rrsetId]? with
  | some rrset, some place =>
    let body : Option (List UInt8) :=
      match place.body with
      | .none => none
      | .records => some rrset.directAnswerRecords
      | .template len => some ((image.wireArena.1.drop (place.offset + place.len)).take len)
    if rrset.records.length ≤ u16Max then
      body.map fun body => ⟨UInt16.ofNat rrset.records.length, body⟩
    else
      none
  | _, _ => none

def directZoneImageAnswerBytes (direct : ZoneImageDirectRrset) (metadata : RequestMetadata)
    (options : AnswerOptions) (sizing : ZoneImageResponseSizing) : List UInt8 :=
  let response := zoneImageResponsePrefix header (Rcode.noError.responseFlagBits true) false
    (direct.sectionCountHeaderBytes (sizing.edns.additionalCount != 0))
  let response := encodeQuestion question response
  appendZoneImageResponseEdns (response ++ direct.body) metadata options sizing.udpCeiling
    sizing.edns

variable (sizing : ZoneImageResponseSizing)

def buildDirectZoneImageAnswerResponse : Option (List UInt8) :=
  if plan.directAnswerCandidate then
    match plan.answerRrsets with
    | [rrsetId] =>
      match image.directRrsetWire rrsetId with
      | none => none
      | some direct =>
        let response := directZoneImageAnswerBytes header question direct metadata options sizing
        if options.transport = .udp ∧ sizing.udpCeiling < response.length then
          none
        else
          some response
    | _ => none
  else
    none

/-- `build_empty_response_inner` for a request with a question. -/
def buildEmptyResponseInner (rcode : Rcode) (authoritative truncated : Bool) (question : Question)
    (metadata : RequestMetadata) (options : AnswerOptions) (udpCeiling : ℕ)
    (ednsSizing : ZoneImageEdnsSizing) : List UInt8 :=
  let response := be16 header.id ++ be16 (header.responseFlags rcode authoritative truncated) ++
    be16 1 ++ sectionCountHeaderBytes 0 0 ednsSizing.additionalCount
  appendZoneImageResponseEdns (encodeQuestion question response) metadata options udpCeiling
    ednsSizing

structure ZoneImageRetrySectionCounts where
  answerCount : UInt16
  authorityCount : UInt16
  additionalCount : UInt16
  sectionCountHeaderBytes : List UInt8
  deriving DecidableEq

namespace ZoneImageRetrySectionCounts

def fromResponseShape (shape : ZoneImagePlanResponseShape) : ZoneImageRetrySectionCounts :=
  ⟨shape.answerCount, shape.authorityCount, shape.additionalCount, shape.sectionCountHeaderBytes⟩

variable (counts : ZoneImageRetrySectionCounts)

def sectionCountHeaderBytesWithExtraAdditional (extraAdditionalCount : UInt16) :
    Option (List UInt8) :=
  if extraAdditionalCount = 0 then
    some counts.sectionCountHeaderBytes
  else if u16Max < counts.additionalCount.toNat + extraAdditionalCount.toNat then
    none
  else
    some (putBe16 counts.sectionCountHeaderBytes 4 (counts.additionalCount + extraAdditionalCount))

/-- `saturating_sub(1)`. -/
def decrement (count : UInt16) : UInt16 := if count = 0 then 0 else count - 1

def decrementAnswer : ZoneImageRetrySectionCounts :=
  { counts with
    answerCount := decrement counts.answerCount
    sectionCountHeaderBytes :=
      putBe16 counts.sectionCountHeaderBytes 0 (decrement counts.answerCount) }

def decrementAuthority : ZoneImageRetrySectionCounts :=
  { counts with
    authorityCount := decrement counts.authorityCount
    sectionCountHeaderBytes :=
      putBe16 counts.sectionCountHeaderBytes 2 (decrement counts.authorityCount) }

def decrementAdditional : ZoneImageRetrySectionCounts :=
  { counts with
    additionalCount := decrement counts.additionalCount
    sectionCountHeaderBytes :=
      putBe16 counts.sectionCountHeaderBytes 4 (decrement counts.additionalCount) }

end ZoneImageRetrySectionCounts

variable (left right : ZoneImageWireRecord)

/-- Records next to each other are of one RRset when owner, type and class agree. -/
def sameRrset : Bool :=
  left.ownerWire == right.ownerWire && left.fixedFields.rrType == right.fixedFields.rrType &&
    left.fixedFields.cls == right.fixedFields.cls

/-- `pop_last_zone_image_rrset`: what is left and what was taken off. -/
def popLastZoneImageRrset (records : List ZoneImageWireRecord) :
    List ZoneImageWireRecord × List ZoneImageWireRecord :=
  match records.getLast? with
  | none => ([], [])
  | some last => (records.rdropWhile (sameRrset last), records.rtakeWhile (sameRrset last))

structure RetryState where
  answers : List ZoneImageWireRecord
  authorities : List ZoneImageWireRecord
  additionals : List ZoneImageWireRecord
  counts : ZoneImageRetrySectionCounts
  removableAuthorityIndices : List ℕ
  truncated : Bool

/-- Where the authorities that may be removed stand, in order. -/
def removableIndices (authorities : List (ZoneImageWireRecord × Bool)) : List ℕ :=
  (List.range authorities.length).filter fun index => (authorities[index]?.map Prod.snd).getD false

variable (shape : ZoneImagePlanResponseShape)

def RetryState.start : RetryState where
  answers := image.visitPlanAnswerRecords plan
  authorities := image.visitPlanAuthorityRecords plan
  additionals := image.visitPlanAdditionalRecords plan
  counts := .fromResponseShape shape
  removableAuthorityIndices :=
    removableIndices (image.visitPlanAuthorityRecordsWithRemovability plan)
  truncated := false

/-- One round of removals; `none` when there was nothing to remove. -/
def retryStep (requiredReferralGlue : Bool) (state : RetryState) : Option RetryState :=
  if state.additionals ≠ [] then
    let (kept, removed) := popLastZoneImageRrset state.additionals
    some { state with
      additionals := kept
      truncated := state.truncated || (requiredReferralGlue && !removed.isEmpty)
      counts := removed.foldl (fun counts _ => counts.decrementAdditional) state.counts }
  else
    match state.removableAuthorityIndices.getLast? with
    | some index =>
      if index < state.authorities.length then
        some { state with
          authorities := state.authorities.eraseIdx index
          removableAuthorityIndices := state.removableAuthorityIndices.dropLast
          truncated := true
          counts := state.counts.decrementAuthority }
      else
        none
    | none =>
      if state.answers ≠ [] then
        some { state with
          answers := state.answers.dropLast
          truncated := true
          counts := state.counts.decrementAnswer }
      else if state.authorities ≠ [] then
        some { state with
          authorities := state.authorities.dropLast
          truncated := true
          counts := state.counts.decrementAuthority }
      else
        none

def RetryState.size (state : RetryState) : ℕ :=
  state.answers.length + state.authorities.length + state.additionals.length

@[simp] theorem sameRrset_iff :
    sameRrset left right = true ↔ left.ownerWire = right.ownerWire ∧
      left.fixedFields.rrType = right.fixedFields.rrType ∧
      left.fixedFields.cls = right.fixedFields.cls := by
  simp [sameRrset, and_assoc]

/-- Popping keeps a prefix that ends where another RRset starts. -/
theorem popLastZoneImageRrset_spec {records : List ZoneImageWireRecord} (h : records ≠ []) :
    (popLastZoneImageRrset records).1 ++ (popLastZoneImageRrset records).2 = records ∧
      (popLastZoneImageRrset records).2 ≠ [] ∧ ∀ last ∈ (popLastZoneImageRrset records).1.getLast?,
        ∀ first ∈ (popLastZoneImageRrset records).2.head?, sameRrset last first = false := by
  obtain ⟨final, hfinal⟩ : ∃ final, final = records.getLast h := ⟨_, rfl⟩
  rw [popLastZoneImageRrset, List.getLast?_eq_some_getLast h, ← hfinal]
  refine ⟨rdropWhile_append_rtakeWhile, ?_, ?_⟩
  · intro hnil
    exact rtakeWhile_eq_nil_iff.mp hnil h (by simp [← hfinal])
  · intro last hmem first hfirst
    have hkept : records.rdropWhile (sameRrset final) ≠ [] := by
      intro hnil
      simp [hnil] at hmem
    have hother := rdropWhile_last_not (sameRrset final) records hkept
    rw [List.getLast?_eq_some_getLast hkept, mem_some_iff] at hmem
    rw [hmem, sameRrset_iff] at hother
    have hsame := mem_rtakeWhile_imp (mem_of_head? hfirst)
    rw [sameRrset_iff] at hsame
    rw [← Bool.not_eq_true, sameRrset_iff]
    rintro ⟨hown, htype, hclass⟩
    exact hother ⟨hsame.1.trans hown.symm, hsame.2.1.trans htype.symm,
      hsame.2.2.trans hclass.symm⟩

/-- What a round of removals does. -/
inductive Removes (requiredReferralGlue : Bool) (state : RetryState) : RetryState → Prop
  | additionals {kept removed : List ZoneImageWireRecord}
      (hsplit : state.additionals = kept ++ removed) (hremoved : removed ≠ [])
      (hboundary : ∀ last ∈ kept.getLast?, ∀ first ∈ removed.head?, sameRrset last first = false) :
      Removes requiredReferralGlue state
        { state with
          additionals := kept
          truncated := state.truncated || requiredReferralGlue
          counts := removed.foldl (fun counts _ => counts.decrementAdditional) state.counts }
  | removable {indices : List ℕ} {index : ℕ} (hadditionals : state.additionals = [])
      (hindices : state.removableAuthorityIndices = indices ++ [index])
      (hindex : index < state.authorities.length) :
      Removes requiredReferralGlue state
        { state with
          authorities := state.authorities.eraseIdx index
          removableAuthorityIndices := indices
          truncated := true
          counts := state.counts.decrementAuthority }
  | answer {answers : List ZoneImageWireRecord} {last : ZoneImageWireRecord}
      (hadditionals : state.additionals = []) (hanswers : state.answers = answers ++ [last]) :
      Removes requiredReferralGlue state
        { state with answers, truncated := true, counts := state.counts.decrementAnswer }
  | authority {authorities : List ZoneImageWireRecord} {last : ZoneImageWireRecord}
      (hadditionals : state.additionals = []) (hindices : state.removableAuthorityIndices = [])
      (hauthorities : state.authorities = authorities ++ [last]) :
      Removes requiredReferralGlue state
        { state with authorities, truncated := true, counts := state.counts.decrementAuthority }

theorem retryStep_removes {requiredReferralGlue : Bool} {state next : RetryState}
    (h : retryStep requiredReferralGlue state = some next) :
    Removes requiredReferralGlue state next := by
  unfold retryStep at h
  split at h
  next hadds =>
    obtain ⟨hsplit, hremoved, hboundary⟩ := popLastZoneImageRrset_spec hadds
    have hsome : (popLastZoneImageRrset state.additionals).2.isEmpty = false := by
      simpa using hremoved
    simp only [hsome, Bool.not_false, Bool.and_true] at h
    obtain rfl := some.inj h
    exact .additionals hsplit.symm hremoved hboundary
  rename_i hadds
  have hadds : state.additionals = [] := by simpa using hadds
  split at h
  next index hlast =>
    split at h
    next hindex =>
      obtain rfl := some.inj h
      exact .removable hadds (dropLast_append_getLast? index hlast).symm hindex
    · simp at h
  rename_i hindices
  have hindices : state.removableAuthorityIndices = [] := by simpa using hindices
  split at h
  next hans =>
    obtain rfl := some.inj h
    exact .answer hadds (dropLast_append_getLast hans).symm
  split at h
  next hauths =>
    obtain rfl := some.inj h
    exact .authority hadds hindices (dropLast_append_getLast hauths).symm
  · simp at h

theorem Removes.size_lt {requiredReferralGlue : Bool} {state next : RetryState}
    (h : Removes requiredReferralGlue state next) : next.size < state.size := by
  unfold RetryState.size
  cases h with
  | additionals hsplit hremoved =>
    have := length_pos_iff.mpr hremoved
    simp only [hsplit, length_append]
    omega
  | removable hadds hindices hindex =>
    have := length_eraseIdx_of_lt hindex
    dsimp only
    omega
  | answer hadds hans =>
    simp only [hans, length_append, length_singleton]
    omega
  | authority hadds hindices hauths =>
    simp only [hauths, length_append, length_singleton]
    omega

/-- The rounds of a retry: a response that is too long is built again after the
next removal, and the last one is sent as it is. -/
def retryLoop (build : RetryState → Option (List UInt8)) (udpCeiling : ℕ)
    (requiredReferralGlue : Bool) (state : RetryState) : Option (List UInt8) :=
  match build state with
  | none => none
  | some response =>
    if response.length ≤ udpCeiling then
      some response
    else
      match _hstep : retryStep requiredReferralGlue state with
      | none => some response
      | some next => retryLoop build udpCeiling requiredReferralGlue next
termination_by state.size
decreasing_by exact (retryStep_removes _hstep).size_lt

variable (responseFlagBits : UInt16)

def buildZoneImageResponseFromWireRecords (metadata : RequestMetadata)
    (options : AnswerOptions) (sizing : ZoneImageResponseSizing) (state : RetryState) :
    Option (List UInt8) :=
  (state.counts.sectionCountHeaderBytesWithExtraAdditional sizing.edns.additionalCount).map
    fun counts =>
      zoneImageResponseBytes header question responseFlagBits state.truncated counts
        (state.answers ++ state.authorities ++ state.additionals) metadata options sizing

def requiredReferralGlue : Bool :=
  responseFlagBits &&& 0x0400 == 0 &&
    (image.visitPlanAuthorityRecords plan).any fun record => record.fixedFields.rrType == ns

def retryZoneImageResponse (metadata : RequestMetadata)
    (options : AnswerOptions) (sizing : ZoneImageResponseSizing) : Option (List UInt8) :=
  retryLoop
    (buildZoneImageResponseFromWireRecords header question shape.responseFlagBits
    metadata options sizing)
    sizing.udpCeiling (requiredReferralGlue image plan shape.responseFlagBits)
    (.start image plan shape)

/-- `build_truncated_zone_image_response`: an extended error is the first thing
to go. -/
def buildTruncatedZoneImageResponse (metadata : RequestMetadata)
    (options : AnswerOptions) (sizing : ZoneImageResponseSizing) : Option (List UInt8) :=
  if metadata.extendedDnsError.isSome then
    let stripped := metadata.withoutExtendedDnsError
    let strippedSizing := sizing.withEdnsSizing (zoneImageEdnsSizing stripped options)
    match buildZoneImageResponseFromPlanRecords header question image plan shape stripped options
        false strippedSizing with
    | none => none
    | some response =>
      if response.length ≤ sizing.udpCeiling then
        some response
      else
        retryZoneImageResponse header question image plan shape stripped options strippedSizing
  else
    retryZoneImageResponse header question image plan shape metadata options sizing

/-- The response to a plan that is not answered by a direct copy. -/
def buildPlannedZoneImageResponse : Option (List UInt8) :=
  match plan.responseShape with
  | none =>
    if options.transport = .udp then
      some (buildEmptyResponseInner header plan.rcode plan.authoritative true question metadata
        options sizing.udpCeiling sizing.edns)
    else
      none
  | some shape =>
    match buildZoneImageResponseFromPlanRecords header question image plan shape metadata options
        false sizing with
    | none => none
    | some response =>
      if options.transport = .udp ∧ sizing.udpCeiling < response.length then
        buildTruncatedZoneImageResponse header question image plan shape metadata options sizing
      else
        some response

def buildZoneImageResponse (allowDirectAnswer : Bool) (sizing : ZoneImageResponseSizing) :
    Option (List UInt8) :=
  match (if allowDirectAnswer then
      buildDirectZoneImageAnswerResponse header question image plan metadata options sizing
    else
      none) with
  | some response => some response
  | none => buildPlannedZoneImageResponse header question image plan metadata options sizing

namespace ZoneImageRetrySectionCounts

def ofLengths (answers authorities additionals : ℕ) : ZoneImageRetrySectionCounts :=
  ⟨UInt16.ofNat answers, UInt16.ofNat authorities, UInt16.ofNat additionals,
    BoronDns.sectionCountHeaderBytes (UInt16.ofNat answers) (UInt16.ofNat authorities)
      (UInt16.ofNat additionals)⟩

theorem decrement_succ {count : ℕ} (h : count + 1 ≤ u16Max) :
    decrement (UInt16.ofNat (count + 1)) = UInt16.ofNat count := by
  have hnat : (UInt16.ofNat (count + 1)).toNat = count + 1 :=
    UInt16.toNat_ofNat_of_lt' (by simp only [UInt16.size, u16Max] at *; omega)
  have hne : UInt16.ofNat (count + 1) ≠ 0 := by
    intro h0
    rw [h0] at hnat
    simp at hnat
  rw [decrement, if_neg hne, UInt16.ofNat_add]
  simp

theorem decrementAuthority_ofLengths {answers authorities additionals : ℕ}
    (h : authorities + 1 ≤ u16Max) :
    (ofLengths answers (authorities + 1) additionals).decrementAuthority =
      ofLengths answers authorities additionals := by
  simp only [decrementAuthority, ofLengths, decrement_succ h]
  rfl

/-- One decrement for every record that was taken off. -/
theorem foldl_decrementAdditional {answers authorities kept : ℕ}
    (removed : List ZoneImageWireRecord) (h : kept + removed.length ≤ u16Max) :
    removed.foldl (fun counts _ => counts.decrementAdditional)
      (ofLengths answers authorities (kept + removed.length)) =
      ofLengths answers authorities kept := by
  induction removed with
  | nil => rfl
  | cons record rest ih =>
    simp only [length_cons, ← Nat.add_assoc] at h
    simp only [foldl_cons, length_cons, ← Nat.add_assoc]
    rw [decrementAdditional]
    simp only [ofLengths, decrement_succ h]
    exact ih (by omega)

end ZoneImageRetrySectionCounts

end BoronDns
