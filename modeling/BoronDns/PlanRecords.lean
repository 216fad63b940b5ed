import BoronDns.ImagePlan

/-!
The records a plan stands for, section by section. `Sound` collects what every
operation on a plan keeps: the plan only names records that exist, it puts them
under owners that are names, and its counts and bounds are the numbers and the
octets of the records visited, up to saturation.
-/

namespace BoronDns

open List ZoneImage

variable (image : ZoneImage) (rrsetId : ℕ) (ownerWire : List UInt8) (qname : DomainName)
  (ownerWireLen : ℕ) (record : ImageRecord) (rrset : ImageRrset)
  (fixedFields : ZoneImageRecordFixedFields) (plan : ZoneImageLookupPlan)

/-- The octets of a record that is written without compression. -/
def ZoneImageWireRecord.octets (record : ZoneImageWireRecord) : ℕ :=
  record.ownerWire.length + 10 + record.rdata.length

open ZoneImageWireRecord

namespace ZoneImage

/-- The octets of an RRset's records, each under an owner of the given length. -/
def rrsetWireLen : ℕ :=
  (rrset.records.map fun record => ownerWireLen + 10 + record.rdata.length).sum

def rrsetPlanMetrics : ZoneImageRrsetPlanMetrics :=
  match image.rrsets[rrsetId]? with
  | none => ⟨0, 0, 0⟩
  | some rrset => ⟨rrset.rrType, rrset.records.length, rrsetWireLen rrset.owner.toWire.length rrset⟩

/-- `ownerless_wire_len`, which is kept in 32 bits. -/
def ownerlessWireLen : ℕ :=
  min (rrsetWireLen rrset.owner.toWire.length rrset - rrset.owner.toWire.length *
    rrset.records.length) u32Max

def rrsetPlanMetricsWithOwnerLen : ZoneImageRrsetPlanMetrics :=
  match image.rrsets[rrsetId]? with
  | none => ⟨0, 0, 0⟩
  | some rrset =>
    ⟨rrset.rrType, rrset.records.length, ownerWireLen * rrset.records.length +
      ownerlessWireLen rrset⟩

/-- `record_fixed_fields`: a TTL of the record's own wins. -/
def recordFixedFields : ZoneImageRecordFixedFields :=
  match record.ttlOverride with
  | none => fixedFields
  | some ttl => { fixedFields with ttl }

def wireRecord (record : ImageRecord) : ZoneImageWireRecord :=
  ⟨ownerWire, fixedFields, UInt16.ofNat record.rdata.length, record.rdataEncoding, record.rdata⟩

def visitRrsetRecordsWithOwnerAndFixedFields : List ZoneImageWireRecord :=
  match image.rrsets[rrsetId]? with
  | none => []
  | some rrset =>
    rrset.records.map fun record =>
      wireRecord ownerWire (recordFixedFields record fixedFields) record

def visitRrsetRecordsWithOwner : List ZoneImageWireRecord :=
  match image.rrsets[rrsetId]? with
  | none => []
  | some rrset => image.visitRrsetRecordsWithOwnerAndFixedFields rrsetId ownerWire rrset.fixedFields

def visitRrsetRecordsWithFixedFieldsOverride : List ZoneImageWireRecord :=
  match image.rrsets[rrsetId]? with
  | none => []
  | some rrset =>
    image.visitRrsetRecordsWithOwnerAndFixedFields rrsetId rrset.owner.toWire fixedFields

def visitRrsetRecords : List ZoneImageWireRecord :=
  match image.rrsets[rrsetId]? with
  | none => []
  | some rrset => image.visitRrsetRecordsWithOwner rrsetId rrset.owner.toWire

def selectedWireRecord (selected : ZoneImageSelectedRecord) : Option ZoneImageWireRecord :=
  match image.rrsets[selected.rrsetId]? with
  | none => none
  | some rrset => rrset.records[selected.recordIndex]?.map
      (wireRecord rrset.owner.toWire selected.fixedFields)

/-- The negative TTL of an SOA, and through it of the denial records beside it. -/
def negativeTtl (image : ZoneImage) (soaRrset : ℕ) : UInt32 :=
  match image.rrsets[soaRrset]? with
  | none => 0
  | some rrset => rrset.negativeTtl

def negativeAuthoritySoaFixedFields : ZoneImageRecordFixedFields :=
  match image.rrsets[rrsetId]? with
  | none => ⟨0, 0, 0⟩
  | some rrset => { rrset.fixedFields with ttl := rrset.negativeTtl }

def visitNegativeDenialRrsetRecord (soaRrset rrsetId : ℕ) : List ZoneImageWireRecord :=
  match image.rrsets[rrsetId]? with
  | none => []
  | some rrset =>
    if rrset.rrType = RecordType.nsec ∨ rrset.rrType = RecordType.nsec3 then
      image.visitRrsetRecordsWithFixedFieldsOverride rrsetId
        { rrset.fixedFields with ttl := image.negativeTtl soaRrset }
    else
      image.visitRrsetRecords rrsetId

def visitPlanAnswerItem : PlanAnswer → List ZoneImageWireRecord
  | .rrset rrsetId => image.visitRrsetRecords rrsetId
  | .rrsetWithOwner rrsetId ownerIndex =>
    match plan.ownerOverrides[ownerIndex]? with
    | none => []
    | some ownerWire => image.visitRrsetRecordsWithOwner rrsetId ownerWire
  | .dynamicRecord index => plan.dynamicAnswers[index]?.toList
  | .selectedRecord selected => (image.selectedWireRecord selected).toList
  | .selectedRecordWithOwner selected ownerIndex =>
    match plan.ownerOverrides[ownerIndex]?, image.selectedWireRecord selected with
    | some ownerWire, some record => [{ record with ownerWire }]
    | _, _ => []

def visitPlanAnswerRecords : List ZoneImageWireRecord :=
  if plan.answerItems.isEmpty then
    plan.answerRrsets.flatMap image.visitRrsetRecords
  else
    plan.answerItems.flatMap (image.visitPlanAnswerItem plan)

/-- The authority RRsets of a plan with the note whether their records may be
taken out of a response that is too long. Only an SOA that is there to carry
the negative TTL may not. -/
def visitAuthorityRrsets : List (ZoneImageWireRecord × Bool) :=
  let plain := (plan.authorityRrsets.flatMap image.visitRrsetRecords).map fun r => (r, true)
  let aroundSoa (before : List ℕ) (soaRrset : ℕ) (rest : List ℕ) :=
    (before.flatMap (image.visitNegativeDenialRrsetRecord soaRrset)).map (fun r => (r, true)) ++
      (image.visitRrsetRecordsWithFixedFieldsOverride soaRrset
        (image.negativeAuthoritySoaFixedFields soaRrset)).map (fun r => (r, false)) ++
      (rest.flatMap (image.visitNegativeDenialRrsetRecord soaRrset)).map (fun r => (r, true))
  if plan.authorityFirstRrsetIsSoa then
    match plan.authorityRrsets with
    | [] => []
    | soaRrset :: rest => aroundSoa [] soaRrset rest
  else if plan.authorityHasSoa then
    match plan.soaIndex with
    | none => plain
    | some index =>
      match plan.authorityRrsets.drop index with
      | [] => plain
      | soaRrset :: rest => aroundSoa (plan.authorityRrsets.take index) soaRrset rest
  else
    plain

def visitPlanAuthorityRecordsWithRemovability : List (ZoneImageWireRecord × Bool) :=
  image.visitAuthorityRrsets plan ++
    (plan.selectedAuthorities.flatMap fun selected =>
    (image.selectedWireRecord selected).toList).map
      fun r => (r, true)

def visitPlanAuthorityRecords : List ZoneImageWireRecord :=
  (image.visitPlanAuthorityRecordsWithRemovability plan).map Prod.fst

def visitPlanAdditionalRecords : List ZoneImageWireRecord :=
  plan.additionalRrsets.flatMap image.visitRrsetRecords ++
    (plan.selectedAdditionals.flatMap fun selected => (image.selectedWireRecord selected).toList) ++
    (plan.additionalRrsetsWithOwner.flatMap fun entry =>
      image.visitPlanAnswerItem plan (.rrsetWithOwner entry.1 entry.2)) ++
    (plan.selectedAdditionalsWithOwner.flatMap fun entry =>
      image.visitPlanAnswerItem plan (.selectedRecordWithOwner entry.1 entry.2))

def visitPlanRecords : List ZoneImageWireRecord :=
  image.visitPlanAnswerRecords plan ++ image.visitPlanAuthorityRecords plan ++
    image.visitPlanAdditionalRecords plan

def rrsetRecordCount : ℕ :=
  match image.rrsets[rrsetId]? with
  | none => 0
  | some rrset => rrset.records.length

/-- The image's records can be sent: owners and compressible names are names of
at most 255 octets and the data fits its length field. -/
def RecordsFit : Prop :=
  ∀ rrset ∈ image.rrsets, rrset.owner.wireLen ≤ 255 ∧ ∀ record ∈ rrset.records,
      record.rdata.length ≤ 65535 ∧ RdataFits record.rdataEncoding record.rdata

/-- A selected record is in the image, and its octets are noted with it. -/
def SelectedExists (selected : ZoneImageSelectedRecord) : Prop :=
  ∃ record, image.selectedWireRecord selected = some record ∧ selected.wireLen = record.octets ∧
    selected.rdataLen = record.rdata.length

def rrsetSizes : List ℕ :=
  (image.visitRrsetRecords rrsetId).map octets

end ZoneImage

namespace ZoneImageLookupPlan

/-- An answer item names what exists. -/
def ItemValid : PlanAnswer → Prop
  | .rrset rrsetId => rrsetId < image.rrsets.length
  | .rrsetWithOwner rrsetId ownerIndex =>
    rrsetId < image.rrsets.length ∧ ownerIndex < plan.ownerOverrides.length
  | .dynamicRecord index => index < plan.dynamicAnswers.length
  | .selectedRecord selected => image.SelectedExists selected
  | .selectedRecordWithOwner selected ownerIndex =>
    image.SelectedExists selected ∧ ownerIndex < plan.ownerOverrides.length

def answerSizes : List ℕ :=
  (image.visitPlanAnswerRecords plan).map octets

def authoritySizes : List ℕ :=
  (image.visitPlanAuthorityRecords plan).map octets

def additionalSizes : List ℕ :=
  (image.visitPlanAdditionalRecords plan).map octets

def NoAdditionals : Prop :=
  plan.additionalRrsets = [] ∧ plan.selectedAdditionals = [] ∧
    plan.additionalRrsetsWithOwner = [] ∧ plan.selectedAdditionalsWithOwner = []

/-- The shape of a plan that may be answered by copying one RRset. -/
structure DirectShape : Prop where
  rcode_eq : plan.rcode = .noError
  authoritative : plan.authoritative = true
  answer : ∃ rrsetId rrset, plan.answerRrsets = [rrsetId] ∧
    image.rrsets[rrsetId]? = some rrset ∧ rrset.owner.lowerLabels = qname.lowerLabels
  items_nil : plan.answerItems = []
  authority_nil : plan.authorityRrsets = [] ∧ plan.selectedAuthorities = []
  additional_nil : plan.NoAdditionals

/-- The plan has a record outside of its additional section. -/
def Backed : Prop :=
  plan.answerSizes image ≠ [] ∨ plan.authoritySizes image ≠ []

/-- The counts and the bounds of a plan are those of its records, up to saturation. -/
structure Tallied : Prop where
  answer_count : plan.answerRecordCount = min (plan.answerSizes image).length u32Max
  authority_count : plan.authorityRecordCount = min (plan.authoritySizes image).length u32Max
  additional_count : plan.additionalRecordCount = min (plan.additionalSizes image).length u32Max
  answer_bound : plan.answerWireUpperBound = min (plan.answerSizes image).sum u32Max
  body_bound : plan.bodyWireUpperBound = min ((plan.answerSizes image).sum +
    (plan.authoritySizes image).sum + (plan.additionalSizes image).sum) u32Max

/-- What the operations on a plan keep. -/
structure Sound : Prop extends Tallied image plan where
  answers_valid : ∀ rrsetId ∈ plan.answerRrsets, rrsetId < image.rrsets.length
  items_valid : ∀ item ∈ plan.answerItems, plan.ItemValid image item
  authorities_valid : (∀ rrsetId ∈ plan.authorityRrsets, rrsetId < image.rrsets.length) ∧
    ∀ selected ∈ plan.selectedAuthorities, image.SelectedExists selected
  additionals_valid : (∀ rrsetId ∈ plan.additionalRrsets, rrsetId < image.rrsets.length) ∧
    (∀ selected ∈ plan.selectedAdditionals, image.SelectedExists selected) ∧
    (∀ entry ∈ plan.additionalRrsetsWithOwner,
    plan.ItemValid image (.rrsetWithOwner entry.1 entry.2)) ∧
    ∀ entry ∈ plan.selectedAdditionalsWithOwner,
    plan.ItemValid image (.selectedRecordWithOwner entry.1 entry.2)
  overrides_fit : ∀ ownerWire ∈ plan.ownerOverrides, FittingName ownerWire
  dynamic_wellFormed : ∀ record ∈ plan.dynamicAnswers, record.WellFormed
  direct : plan.directAnswerCandidate = true → plan.DirectShape image qname
  items_cover : plan.answerItems ≠ [] → ∀ rrsetId ∈ plan.answerRrsets,
    .rrset rrsetId ∈ plan.answerItems
  supported : plan.NoAdditionals ∨ plan.Backed image

end ZoneImageLookupPlan

namespace ZoneImage

variable {image : ZoneImage} {plan : ZoneImageLookupPlan}

/-- A visit under any owner and fixed fields shows the records of the RRset. -/
theorem visitRrset_spec {rrsetId : ℕ} {rrset : ImageRrset} (h : image.rrsets[rrsetId]? = some rrset)
    (ownerWire : List UInt8) (fixedFields : ZoneImageRecordFixedFields) :
    image.visitRrsetRecordsWithOwnerAndFixedFields rrsetId ownerWire fixedFields =
      rrset.records.map fun record =>
        wireRecord ownerWire (recordFixedFields record fixedFields) record := by
  rw [visitRrsetRecordsWithOwnerAndFixedFields, h]

/-- Visits under the RRset's own owner differ in the fixed fields only. -/
theorem visitRrsetRecords_eq (image : ZoneImage) (rrsetId : ℕ) : ∃ fixedFields,
    image.visitRrsetRecords rrsetId = image.visitRrsetRecordsWithFixedFieldsOverride rrsetId
      fixedFields := by
  unfold visitRrsetRecords visitRrsetRecordsWithFixedFieldsOverride visitRrsetRecordsWithOwner
  cases image.rrsets[rrsetId]? with
  | none => exact ⟨⟨0, 0, 0⟩, rfl⟩
  | some rrset => exact ⟨rrset.fixedFields, rfl⟩

theorem visitNegativeDenialRrsetRecord_eq (image : ZoneImage) (soaRrset rrsetId : ℕ) :
    ∃ fixedFields, image.visitNegativeDenialRrsetRecord soaRrset rrsetId =
      image.visitRrsetRecordsWithFixedFieldsOverride rrsetId fixedFields := by
  unfold visitNegativeDenialRrsetRecord
  cases hget : image.rrsets[rrsetId]? with
  | none => exact ⟨⟨0, 0, 0⟩, by rw [visitRrsetRecordsWithFixedFieldsOverride, hget]⟩
  | some rrset =>
    dsimp only
    split
    · exact ⟨_, rfl⟩
    · exact image.visitRrsetRecords_eq rrsetId

/-- The authority RRsets are shown as they are, or around an SOA that carries the
negative TTL. -/
theorem visitAuthorityRrsets_cases (image : ZoneImage) (plan : ZoneImageLookupPlan) :
    (image.visitAuthorityRrsets plan).map Prod.fst =
      plan.authorityRrsets.flatMap image.visitRrsetRecords ∨
      ∃ before soaRrset rest, plan.authorityRrsets = before ++ soaRrset :: rest ∧
        (image.visitAuthorityRrsets plan).map Prod.fst =
          before.flatMap (image.visitNegativeDenialRrsetRecord soaRrset) ++
            image.visitRrsetRecordsWithFixedFieldsOverride soaRrset
              (image.negativeAuthoritySoaFixedFields soaRrset) ++
            rest.flatMap (image.visitNegativeDenialRrsetRecord soaRrset) := by
  have hfst : ∀ (records : List ZoneImageWireRecord) (removable : Bool),
      (records.map fun r => (r, removable)).map Prod.fst = records := by
    intro records removable
    simp [map_map, Function.comp_def]
  unfold visitAuthorityRrsets
  split
  · split
    next hnil => exact Or.inl (by rw [hnil]; rfl)
    next soaRrset rest hcons => exact Or.inr ⟨[], soaRrset, rest, hcons, by simp [hfst]⟩
  split
  · split
    · exact Or.inl (hfst _ _)
    next index _ =>
      split
      · exact Or.inl (hfst _ _)
      next soaRrset rest hdrop =>
        refine Or.inr ⟨plan.authorityRrsets.take index, soaRrset, rest, ?_, ?_⟩
        · rw [← hdrop, take_append_drop]
        · simp [hfst]
  · exact Or.inl (hfst _ _)

theorem sizes_visitOverride :
    (image.visitRrsetRecordsWithFixedFieldsOverride rrsetId fixedFields).map octets =
      image.rrsetSizes rrsetId := by
  obtain ⟨ownFields, hown⟩ := image.visitRrsetRecords_eq rrsetId
  rw [rrsetSizes, hown]
  unfold visitRrsetRecordsWithFixedFieldsOverride
  cases hget : image.rrsets[rrsetId]? with
  | none => rfl
  | some rrset =>
    simp only [visitRrset_spec hget, map_map]
    rfl

theorem sizes_visitNegativeDenial (soaRrset rrsetId : ℕ) :
    (image.visitNegativeDenialRrsetRecord soaRrset rrsetId).map octets =
      image.rrsetSizes rrsetId := by
  obtain ⟨fixedFields, heq⟩ := image.visitNegativeDenialRrsetRecord_eq soaRrset rrsetId
  rw [heq, sizes_visitOverride]

theorem length_rrsetSizes : (image.rrsetSizes rrsetId).length = image.rrsetRecordCount rrsetId := by
  obtain ⟨fixedFields, heq⟩ := image.visitRrsetRecords_eq rrsetId
  rw [rrsetSizes, heq, visitRrsetRecordsWithFixedFieldsOverride, rrsetRecordCount]
  cases hget : image.rrsets[rrsetId]? with
  | none => rfl
  | some rrset => simp [visitRrset_spec hget]

def selectedSizes (image : ZoneImage) (selected : ZoneImageSelectedRecord) : List ℕ :=
  (image.selectedWireRecord selected).toList.map octets

variable {selected : ZoneImageSelectedRecord}

theorem selectedSizes_eq (h : image.SelectedExists selected) :
    image.selectedSizes selected = [selected.wireLen] := by
  obtain ⟨record, hrec, hwire, -⟩ := h
  simp [selectedSizes, hrec, hwire]

def itemSizes (image : ZoneImage) (plan : ZoneImageLookupPlan) (item : PlanAnswer) : List ℕ :=
  (image.visitPlanAnswerItem plan item).map octets

theorem itemSizes_rrsetWithOwner {rrsetId ownerIndex : ℕ} {ownerWire : List UInt8}
    (h : plan.ownerOverrides[ownerIndex]? = some ownerWire) :
    image.itemSizes plan (.rrsetWithOwner rrsetId ownerIndex) =
      (image.visitRrsetRecordsWithOwner rrsetId ownerWire).map octets := by
  rw [itemSizes, visitPlanAnswerItem, h]

theorem itemSizes_selectedWithOwner {ownerIndex : ℕ}
    (h : plan.ItemValid image (.selectedRecordWithOwner selected ownerIndex)) :
    image.itemSizes plan (.selectedRecordWithOwner selected ownerIndex) =
      [plan.selectedWireLenWithOwner selected ownerIndex] := by
  obtain ⟨⟨record, hrec, -, hrdata⟩, hown⟩ := h
  simp [itemSizes, visitPlanAnswerItem, List.getElem?_eq_getElem hown, hrec, octets,
    ZoneImageLookupPlan.selectedWireLenWithOwner, hrdata, getD_eq_getElem?_getD]

end ZoneImage

namespace ZoneImageLookupPlan

variable {image : ZoneImage} {qname : DomainName} {plan : ZoneImageLookupPlan}

theorem authoritySizes_eq (image : ZoneImage) (plan : ZoneImageLookupPlan) :
    plan.authoritySizes image = plan.authorityRrsets.flatMap image.rrsetSizes ++
      plan.selectedAuthorities.flatMap image.selectedSizes := by
  have hrrsets : ((image.visitAuthorityRrsets plan).map Prod.fst).map octets =
      plan.authorityRrsets.flatMap image.rrsetSizes := by
    rcases image.visitAuthorityRrsets_cases plan with hplain | ⟨before, soaRrset, rest, hsplit,
      haround⟩
    · rw [hplain, map_flatMap]
      rfl
    · rw [haround, hsplit]
      simp [map_flatMap, sizes_visitNegativeDenial, sizes_visitOverride]
  rw [authoritySizes, visitPlanAuthorityRecords,
    visitPlanAuthorityRecordsWithRemovability, map_append, map_append, hrrsets]
  simp only [map_map, Function.comp_def, map_flatMap]
  rfl

theorem additionalSizes_eq (image : ZoneImage) (plan : ZoneImageLookupPlan) :
    plan.additionalSizes image = plan.additionalRrsets.flatMap image.rrsetSizes ++
      plan.selectedAdditionals.flatMap image.selectedSizes ++ plan.additionalRrsetsWithOwner.flatMap
        (fun entry =>
        image.itemSizes plan (.rrsetWithOwner entry.1 entry.2)) ++
      plan.selectedAdditionalsWithOwner.flatMap fun entry =>
        image.itemSizes plan (.selectedRecordWithOwner entry.1 entry.2) := by
  simp only [additionalSizes, visitPlanAdditionalRecords, map_append, map_flatMap]
  rfl

theorem NoAdditionals.visit (h : plan.NoAdditionals) :
    image.visitPlanAdditionalRecords plan = [] := by
  obtain ⟨hrrsets, hselected, hwith, hselectedWith⟩ := h
  simp [visitPlanAdditionalRecords, hrrsets, hselected, hwith, hselectedWith]

theorem DirectShape.sections (h : plan.DirectShape image qname) :
    image.visitPlanAuthorityRecords plan = [] ∧ image.visitPlanAdditionalRecords plan = [] := by
  refine ⟨map_eq_nil_iff.mp (?_ : plan.authoritySizes image = []), h.additional_nil.visit⟩
  rw [authoritySizes_eq, h.authority_nil.1, h.authority_nil.2]
  rfl

end ZoneImageLookupPlan

end BoronDns
