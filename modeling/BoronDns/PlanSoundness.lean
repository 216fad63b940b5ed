import BoronDns.PlanRecords
import Mathlib.Algebra.Order.BigOperators.Group.List
import Mathlib.Algebra.Order.Ring.Nat
import Mathlib.Tactic.Ring

/-!
The records of a sound plan can all be sent, and every operation on a plan
keeps it sound. The lookups of the image build their plans from these
operations only.
-/

namespace BoronDns

open ZoneImageWireRecord List ZoneImage

variable {rrset ownerIndex : ℕ} {ownerWire : List UInt8} {grown : ZoneImageLookupPlan}
  {item : PlanAnswer} {record : ZoneImageSelectedRecord}

theorem forall_mem_snoc {α : Type} {p : α → Prop} {front : List α} {last : α}
    (h : ∀ x ∈ front, p x) (hlast : p last) : ∀ x ∈ front ++ [last], p x :=
  forall_mem_append.mpr ⟨h, forall_mem_singleton.mpr hlast⟩

namespace ZoneImage

variable {image : ZoneImage}

theorem wireRecord_wellFormed {record : ImageRecord} (hown : FittingName ownerWire)
    (hlen : record.rdata.length ≤ 65535) (hfits : RdataFits record.rdataEncoding record.rdata)
    (fixedFields : ZoneImageRecordFixedFields) :
    (wireRecord ownerWire fixedFields record).WellFormed := by
  refine ⟨hown, ?_, hfits⟩
  simp only [wireRecord, UInt16.toNat_ofNat']
  omega

theorem RecordsFit.owner (h : image.RecordsFit) {rrsetId : ℕ} {rrset : ImageRrset}
    (hget : image.rrsets[rrsetId]? = some rrset) : FittingName rrset.owner.toWire :=
  ⟨rrset.owner, (h rrset (mem_of_getElem? hget)).1, rfl⟩

section

theorem RecordsFit.visit (h : image.RecordsFit) (rrsetId : ℕ) (hown : FittingName ownerWire)
    (fixedFields : ZoneImageRecordFixedFields) :
    ∀ record ∈ image.visitRrsetRecordsWithOwnerAndFixedFields rrsetId ownerWire fixedFields,
      record.WellFormed := by
  intro record hrec
  cases hget : image.rrsets[rrsetId]? with
  | none => simp [visitRrsetRecordsWithOwnerAndFixedFields, hget] at hrec
  | some rrset =>
    rw [visitRrset_spec hget] at hrec
    obtain ⟨stored, hstored, rfl⟩ := mem_map.mp hrec
    obtain ⟨hlen, hfits⟩ := (h rrset (mem_of_getElem? hget)).2 stored hstored
    exact wireRecord_wellFormed hown hlen hfits _

theorem RecordsFit.visitOverride (h : image.RecordsFit) (rrsetId : ℕ)
    (fixedFields : ZoneImageRecordFixedFields) :
    ∀ record ∈ image.visitRrsetRecordsWithFixedFieldsOverride rrsetId fixedFields,
      record.WellFormed := by
  unfold visitRrsetRecordsWithFixedFieldsOverride
  split
  · simp
  next rrset hget => exact h.visit rrsetId (h.owner hget) _

theorem RecordsFit.visitRrset (h : image.RecordsFit) (rrsetId : ℕ) :
    ∀ record ∈ image.visitRrsetRecords rrsetId, record.WellFormed := by
  obtain ⟨fixedFields, heq⟩ := image.visitRrsetRecords_eq rrsetId
  rw [heq]
  exact h.visitOverride rrsetId fixedFields

theorem RecordsFit.selected (h : image.RecordsFit) {selected : ZoneImageSelectedRecord}
    {record : ZoneImageWireRecord} (hrec : image.selectedWireRecord selected = some record) :
    record.WellFormed := by
  unfold selectedWireRecord at hrec
  split at hrec
  · simp at hrec
  next rrset hget =>
    obtain ⟨stored, hstored, rfl⟩ := Option.map_eq_some_iff.mp hrec
    obtain ⟨hlen, hfits⟩ :=
      (h rrset (mem_of_getElem? hget)).2 stored (mem_of_getElem? hstored)
    exact wireRecord_wellFormed (h.owner hget) hlen hfits _

theorem RecordsFit.selectedList (h : image.RecordsFit) (selecteds : List ZoneImageSelectedRecord) :
    ∀ record ∈ selecteds.flatMap (fun selected => (image.selectedWireRecord selected).toList),
      record.WellFormed :=
  forall_mem_flatMap.mpr fun _ _ _ hmem => h.selected (Option.mem_toList.mp hmem)

end

end ZoneImage

namespace ZoneImageLookupPlan

variable {image : ZoneImage} {qname : DomainName} {plan : ZoneImageLookupPlan}

theorem Sound.item_wellFormed (h : plan.Sound image qname) (hfit : image.RecordsFit)
    (item : PlanAnswer) : ∀ record ∈ image.visitPlanAnswerItem plan item, record.WellFormed := by
  cases item with
  | rrset rrsetId => exact hfit.visitRrset rrsetId
  | rrsetWithOwner rrsetId ownerIndex =>
    simp only [visitPlanAnswerItem]
    split
    · simp
    next ownerWire hget =>
      unfold visitRrsetRecordsWithOwner
      split
      · simp
      · exact hfit.visit rrsetId (h.overrides_fit _ (mem_of_getElem? hget)) _
  | dynamicRecord index =>
    intro record hrec
    exact h.dynamic_wellFormed record (mem_of_getElem? (Option.mem_toList.mp hrec))
  | selectedRecord selected =>
    intro record hrec
    exact hfit.selected (Option.mem_toList.mp hrec)
  | selectedRecordWithOwner selected ownerIndex =>
    simp only [visitPlanAnswerItem]
    split
    next ownerWire record hget hrec =>
      intro other hother
      rw [mem_singleton.mp hother]
      have hwell := hfit.selected hrec
      exact ⟨h.overrides_fit _ (mem_of_getElem? hget), hwell.rdlength_eq, hwell.rdata_fits⟩
    · simp

theorem Sound.answers_wellFormed (h : plan.Sound image qname) (hfit : image.RecordsFit) :
    ∀ record ∈ image.visitPlanAnswerRecords plan, record.WellFormed := by
  unfold visitPlanAnswerRecords
  split
  · exact forall_mem_flatMap.mpr fun rrsetId _ => hfit.visitRrset rrsetId
  · exact forall_mem_flatMap.mpr fun item _ => h.item_wellFormed hfit item

theorem authorities_wellFormed (hfit : image.RecordsFit) (plan : ZoneImageLookupPlan) :
    ∀ record ∈ image.visitPlanAuthorityRecords plan, record.WellFormed := by
  have hrrsets : ∀ record ∈ (image.visitAuthorityRrsets plan).map Prod.fst, record.WellFormed := by
    rcases image.visitAuthorityRrsets_cases plan with hplain | ⟨before, soaRrset, rest, -, haround⟩
    · rw [hplain]
      exact forall_mem_flatMap.mpr fun rrsetId _ => hfit.visitRrset rrsetId
    · have hdenial : ∀ rrsets : List ℕ, ∀ record ∈ rrsets.flatMap
          (image.visitNegativeDenialRrsetRecord soaRrset), record.WellFormed :=
        fun rrsets => forall_mem_flatMap.mpr fun rrsetId _ => by
          obtain ⟨fixedFields, heq⟩ := image.visitNegativeDenialRrsetRecord_eq soaRrset rrsetId
          rw [heq]
          exact hfit.visitOverride rrsetId fixedFields
      rw [haround, forall_mem_append, forall_mem_append]
      exact ⟨⟨hdenial before, hfit.visitOverride soaRrset _⟩, hdenial rest⟩
  rw [visitPlanAuthorityRecords, visitPlanAuthorityRecordsWithRemovability, map_append,
    forall_mem_append]
  refine ⟨hrrsets, ?_⟩
  rw [map_map, forall_mem_map]
  exact hfit.selectedList _

theorem Sound.additionals_wellFormed (h : plan.Sound image qname) (hfit : image.RecordsFit) :
    ∀ record ∈ image.visitPlanAdditionalRecords plan, record.WellFormed := by
  simp only [visitPlanAdditionalRecords, forall_mem_append, forall_mem_flatMap]
  exact ⟨⟨⟨fun rrsetId _ => hfit.visitRrset rrsetId,
    forall_mem_flatMap.mp (hfit.selectedList plan.selectedAdditionals)⟩,
    fun _ _ => h.item_wellFormed hfit _⟩, fun _ _ => h.item_wellFormed hfit _⟩

theorem ItemValid.mono (h : plan.ItemValid image item)
    (howners : plan.ownerOverrides.length ≤ grown.ownerOverrides.length)
    (hdynamic : plan.dynamicAnswers.length ≤ grown.dynamicAnswers.length) :
    grown.ItemValid image item := by
  cases item with
  | rrset rrsetId => exact h
  | rrsetWithOwner rrsetId ownerIndex => exact ⟨h.1, lt_of_lt_of_le h.2 howners⟩
  | dynamicRecord index => exact lt_of_lt_of_le (α := ℕ) h hdynamic
  | selectedRecord selected => exact h
  | selectedRecordWithOwner selected ownerIndex => exact ⟨h.1, lt_of_lt_of_le h.2 howners⟩

/-- A visit of an item only looks at the owners and the records that the item was made with. -/
theorem visitItem_grown (hitem : plan.ItemValid image item)
    (howners : plan.ownerOverrides <+: grown.ownerOverrides)
    (hrecs : plan.dynamicAnswers <+: grown.dynamicAnswers) :
    image.visitPlanAnswerItem grown item = image.visitPlanAnswerItem plan item := by
  obtain ⟨owners, howners⟩ := howners
  obtain ⟨records, hrecs⟩ := hrecs
  have hown : ∀ index, index < plan.ownerOverrides.length →
      grown.ownerOverrides[index]? = plan.ownerOverrides[index]? := by
    intro index hindex
    rw [← howners, List.getElem?_append_left hindex]
  cases item with
  | rrset rrsetId => rfl
  | rrsetWithOwner rrsetId ownerIndex => simp [visitPlanAnswerItem, hown ownerIndex hitem.2]
  | dynamicRecord index =>
    have hindex : index < plan.dynamicAnswers.length := hitem
    simp [visitPlanAnswerItem, ← hrecs, List.getElem?_append_left hindex]
  | selectedRecord selected => rfl
  | selectedRecordWithOwner selected ownerIndex =>
    simp [visitPlanAnswerItem, hown ownerIndex hitem.2]

section Tally

variable {added before after : List ℕ} {count bound total : ℕ}

/-- What an operation adds to a count and to a bound, for records of the given octets. -/
def Measures (count bound : ℕ) (added : List ℕ) : Prop :=
  count = added.length ∧ min bound u32Max = min added.sum u32Max

theorem measures_one (octets : ℕ) : Measures 1 octets [octets] := ⟨rfl, by simp⟩

theorem measures_rrset (rrsetId : ℕ) : Measures (image.rrsetPlanMetrics rrsetId).recordCount
    (image.rrsetPlanMetrics rrsetId).wireUpperBound (image.rrsetSizes rrsetId) := by
  rw [← sizes_visitOverride rrsetId ⟨0, 0, 0⟩, rrsetPlanMetrics,
    visitRrsetRecordsWithFixedFieldsOverride]
  cases hget : image.rrsets[rrsetId]? with
  | none => exact ⟨rfl, rfl⟩
  | some rrset =>
    simp only [visitRrset_spec hget, map_map]
    exact ⟨(length_map _).symm, rfl⟩

theorem rrsetWireLen_eq (ownerWireLen : ℕ) (rrset : ImageRrset) :
    rrsetWireLen ownerWireLen rrset = ownerWireLen * rrset.records.length +
      rrsetWireLen 0 rrset := by
  unfold rrsetWireLen
  induction rrset.records with
  | nil => rfl
  | cons record rest ih =>
    simp only [map_cons, sum_cons, length_cons] at ih ⊢
    rw [ih]
    ring

/-- Below saturation the octets without owners and the owners make up the whole. -/
theorem measures_owned (rrsetId : ℕ) (ownerWire : List UInt8) :
    Measures (image.rrsetPlanMetricsWithOwnerLen rrsetId ownerWire.length).recordCount
      (image.rrsetPlanMetricsWithOwnerLen rrsetId ownerWire.length).wireUpperBound
      ((image.visitRrsetRecordsWithOwner rrsetId ownerWire).map octets) := by
  rw [rrsetPlanMetricsWithOwnerLen, visitRrsetRecordsWithOwner]
  cases hget : image.rrsets[rrsetId]? with
  | none => exact ⟨rfl, rfl⟩
  | some rrset =>
    simp only [visitRrset_spec hget, map_map]
    refine ⟨(length_map _).symm, ?_⟩
    show _ = min (rrsetWireLen ownerWire.length rrset) u32Max
    rw [ownerlessWireLen, rrsetWireLen_eq ownerWire.length,
      rrsetWireLen_eq rrset.owner.toWire.length, Nat.add_sub_cancel_left]
    omega

/-- The octets of records that were added somewhere in a section. -/
def GrownBy (added before after : List ℕ) : Prop :=
  after.length = before.length + added.length ∧ after.sum = before.sum + added.sum

theorem grownBy_append (h : after = before ++ added) : GrownBy added before after :=
  h ▸ ⟨length_append, sum_append⟩

theorem grownBy_snoc {α : Type} {f : α → List ℕ} {last : α} (front : List α) (h : f last = added) :
    GrownBy added (front.flatMap f) ((front ++ [last]).flatMap f) := by
  rw [flatMap_append, flatMap_singleton, h]
  exact grownBy_append rfl

theorem GrownBy.append_left (h : GrownBy added before after) (front : List ℕ) :
    GrownBy added (front ++ before) (front ++ after) := by
  simp only [GrownBy, length_append, sum_append] at h ⊢
  omega

theorem GrownBy.append_right (h : GrownBy added before after) (rest : List ℕ) :
    GrownBy added (before ++ rest) (after ++ rest) := by
  simp only [GrownBy, length_append, sum_append] at h ⊢
  omega

theorem GrownBy.ne_nil (h : GrownBy added before after) (hne : before ≠ []) : after ≠ [] := by
  have hpos := length_pos_iff.mpr hne
  exact ne_nil_of_length_pos (by rw [h.1]; omega)

theorem Measures.counted (h : Measures count bound added) (hgrown : GrownBy added before after)
    (htotal : total = min before.length u32Max) :
    addPlanRecordCount total count = min after.length u32Max := by
  rw [addPlanRecordCount, h.1, htotal, hgrown.1]
  omega

theorem Measures.bounded {octets sum : ℕ} (h : Measures count bound added)
    (htotal : total = min octets u32Max) (hsum : sum = octets + added.sum) :
    addPlanWireUpperBound total bound = min sum u32Max := by
  have hbound := h.2
  unfold addPlanWireUpperBound
  omega

theorem GrownBy.first (h : GrownBy added before after) (second third : ℕ) :
    after.sum + second + third = before.sum + second + third + added.sum := by
  rw [h.2]
  ring

theorem GrownBy.second (h : GrownBy added before after) (first third : ℕ) :
    first + after.sum + third = first + before.sum + third + added.sum := by
  rw [h.2]
  ring

theorem GrownBy.third (h : GrownBy added before after) (front : ℕ) :
    front + after.sum = front + before.sum + added.sum := by
  rw [h.2, Nat.add_assoc]

end Tally

/-- A plan whose answers and authorities grow stays supported. -/
theorem Sound.supported_mono (h : plan.Sound image qname)
    (hnone : plan.NoAdditionals → grown.NoAdditionals)
    (hans : plan.answerSizes image ≠ [] → grown.answerSizes image ≠ [])
    (hauths : plan.authoritySizes image ≠ [] → grown.authoritySizes image ≠ []) :
    grown.NoAdditionals ∨ grown.Backed image :=
  h.supported.imp hnone (Or.imp hans hauths)

theorem sound_positive : positive.Sound image qname := by
  refine ⟨⟨rfl, rfl, rfl, rfl, rfl⟩, ?_, ?_, ?_, ?_, ?_, ?_, nofun, ?_, ?_⟩
  all_goals simp [positive, NoAdditionals]

theorem visitAnswers_ensureAnswerItems (image : ZoneImage) (plan : ZoneImageLookupPlan) :
    image.visitPlanAnswerRecords plan.ensureAnswerItems = image.visitPlanAnswerRecords plan := by
  unfold ZoneImageLookupPlan.ensureAnswerItems
  split
  next hnil =>
    unfold visitPlanAnswerRecords
    split
    · rfl
    · rw [flatMap_map]
      rfl
  · rfl

/-- A plan that lists its answers as items shows the same records. -/
theorem Sound.ensureAnswerItems (h : plan.Sound image qname)
    (hopen : plan.directAnswerCandidate = false) : plan.ensureAnswerItems.Sound image qname := by
  have hvisit := visitAnswers_ensureAnswerItems image plan
  unfold ZoneImageLookupPlan.ensureAnswerItems at hvisit ⊢
  split at hvisit
  next hnil =>
    rw [if_pos hnil]
    exact { h with
      answer_count := by rw [answerSizes, hvisit]; exact h.answer_count
      answer_bound := by rw [answerSizes, hvisit]; exact h.answer_bound
      body_bound := by rw [answerSizes, hvisit]; exact h.body_bound
      items_valid := forall_mem_map.mpr h.answers_valid
      direct := fun hdirect => absurd (hopen.symm.trans hdirect) Bool.false_ne_true
      items_cover := fun _ rrsetId hmem => mem_map_of_mem hmem
      supported := h.supported_mono id (fun hne => by rwa [answerSizes, hvisit]) id }
  next hne =>
    rw [if_neg hne]
    exact h

@[simp] theorem ensureAnswerItems_direct (plan : ZoneImageLookupPlan) :
    plan.ensureAnswerItems.directAnswerCandidate = plan.directAnswerCandidate := by
  unfold ZoneImageLookupPlan.ensureAnswerItems
  split <;> rfl

/-- A plan after `ensureAnswerItems` has all its answers among its items. -/
theorem ensureAnswerItems_covers (plan : ZoneImageLookupPlan) :
    plan.ensureAnswerItems.answerItems = [] → plan.ensureAnswerItems.answerRrsets = [] := by
  unfold ZoneImageLookupPlan.ensureAnswerItems
  split
  · intro hnil
    simpa using hnil
  next hne =>
    intro hnil
    simp [hnil] at hne

/-- An item behind items that cover the answers adds its own records. -/
theorem answerSizes_append_item {added : List ℕ} (hcover : plan.answerItems = [] →
      plan.answerRrsets = [])
    (hitems : grown.answerItems = plan.answerItems ++ [item])
    (hsame : ∀ other ∈ plan.answerItems, image.visitPlanAnswerItem grown other =
      image.visitPlanAnswerItem plan other)
    (hadded : image.itemSizes grown item = added) :
    grown.answerSizes image = plan.answerSizes image ++ added := by
  have hold : image.visitPlanAnswerRecords plan = plan.answerItems.flatMap
      (image.visitPlanAnswerItem grown) := by
    unfold visitPlanAnswerRecords
    split
    next hnil =>
      have hnil : plan.answerItems = [] := List.isEmpty_iff.mp hnil
      rw [hcover hnil, hnil]
      rfl
    · exact flatMap_congr fun other hother => (hsame other hother).symm
  rw [answerSizes, answerSizes, hold, visitPlanAnswerRecords, hitems, if_neg (by simp),
    flatMap_append, map_append, flatMap_singleton, ← hadded]
  rfl

/-- Items that cover the answers still do with one more. -/
theorem Sound.items_cover_append (h : plan.Sound image qname)
    (hcover : plan.answerItems = [] → plan.answerRrsets = []) :
    plan.answerItems ++ [item] ≠ [] → ∀ rrsetId ∈ plan.answerRrsets,
      .rrset rrsetId ∈ plan.answerItems ++ [item] := by
  intro _ rrsetId hmem
  by_cases hnil : plan.answerItems = []
  · simp [hcover hnil] at hmem
  · exact mem_append_left _ (h.items_cover hnil rrsetId hmem)

theorem Sound.unmark (h : plan.Sound image qname) :
    Sound image qname { plan with directAnswerCandidate := false } :=
  { h with direct := nofun }

theorem answerSizes_pushAnswerRrset (metrics : ZoneImageRrsetPlanMetrics)
    (hnew : ¬ plan.answerRrsets.contains rrset = true) :
    (plan.pushAnswerRrset rrset metrics).answerSizes image = plan.answerSizes image ++
      image.rrsetSizes rrset := by
  rw [ZoneImageLookupPlan.pushAnswerRrset, if_neg hnew]
  by_cases hnil : plan.answerItems = []
  · simp [answerSizes, visitPlanAnswerRecords, hnil, rrsetSizes]
  · exact answerSizes_append_item (fun h => absurd h hnil) (if_neg (by simpa using hnil))
      (fun _ _ => rfl) rfl

theorem Sound.pushAnswerRrset (h : plan.Sound image qname) (hvalid : rrset < image.rrsets.length) :
    (plan.pushAnswerRrset rrset (image.rrsetPlanMetrics rrset)).Sound image qname := by
  by_cases hnew : plan.answerRrsets.contains rrset = true
  · rw [ZoneImageLookupPlan.pushAnswerRrset, if_pos hnew]
    exact h
  have hgrown : GrownBy (image.rrsetSizes rrset) (plan.answerSizes image)
      ((plan.pushAnswerRrset rrset (image.rrsetPlanMetrics rrset)).answerSizes image) :=
    grownBy_append (answerSizes_pushAnswerRrset _ hnew)
  rw [ZoneImageLookupPlan.pushAnswerRrset, if_neg hnew] at hgrown ⊢
  refine { h with
    answer_count := (measures_rrset rrset).counted hgrown h.answer_count
    answer_bound := (measures_rrset rrset).bounded h.answer_bound hgrown.2
    body_bound := (measures_rrset rrset).bounded h.body_bound (hgrown.first _ _)
    answers_valid := forall_mem_snoc h.answers_valid hvalid
    items_valid := ?_
    direct := nofun
    items_cover := ?_
    supported := h.supported_mono id hgrown.ne_nil id }
  · dsimp only
    split
    · exact h.items_valid
    · exact forall_mem_snoc h.items_valid hvalid
  · dsimp only
    intro hne
    split at hne
    next hnil => exact absurd (List.isEmpty_iff.mp hnil) hne
    next hitems =>
      rw [if_neg hitems]
      refine forall_mem_snoc (fun rrsetId hmem => ?_) (by simp)
      exact mem_append_left _ (h.items_cover (by simpa using hitems) rrsetId hmem)

theorem backed_of_item (hmem : item ∈ plan.answerItems)
    (hrecs : image.itemSizes plan item ≠ []) : plan.Backed image := by
  have hitems : ¬ plan.answerItems.isEmpty = true := by simpa using ne_nil_of_mem hmem
  refine Or.inl fun hnil => hrecs (map_eq_nil_iff.mpr ?_)
  have hvisit := map_eq_nil_iff.mp hnil
  rw [visitPlanAnswerRecords, if_neg hitems, flatMap_eq_nil_iff] at hvisit
  exact hvisit item hmem

theorem rrsetSizes_ne_nil (hrecs : 0 < image.rrsetRecordCount rrset) :
    image.rrsetSizes rrset ≠ [] :=
  ne_nil_of_length_pos (by rwa [length_rrsetSizes])

/-- After an RRset with records is pushed, the plan has a record. -/
theorem Sound.backed_of_answer (h : plan.Sound image qname)
    (hrecs : 0 < image.rrsetRecordCount rrset) :
    (plan.pushAnswerRrset rrset (image.rrsetPlanMetrics rrset)).Backed image := by
  have hsizes := rrsetSizes_ne_nil hrecs
  by_cases hnew : plan.answerRrsets.contains rrset = true
  · rw [ZoneImageLookupPlan.pushAnswerRrset, if_pos hnew]
    have hmem : rrset ∈ plan.answerRrsets := by simpa using hnew
    by_cases hitems : plan.answerItems = []
    · refine Or.inl fun hnil => hsizes (map_eq_nil_iff.mpr ?_)
      have hvisit := map_eq_nil_iff.mp hnil
      rw [visitPlanAnswerRecords, if_pos (by simpa using hitems), flatMap_eq_nil_iff] at hvisit
      exact hvisit rrset hmem
    · exact backed_of_item (h.items_cover hitems rrset hmem) hsizes
  · left
    rw [answerSizes_pushAnswerRrset _ hnew]
    exact append_ne_nil_of_right_ne_nil _ hsizes

theorem Sound.pushAnswerRrsetWithOwnerIndex (h : plan.Sound image qname)
    (hvalid : rrset < image.rrsets.length)
    (hown : plan.ownerOverrides[ownerIndex]? = some ownerWire)
    (hcover : plan.answerItems = [] → plan.answerRrsets = []) :
    (plan.pushAnswerRrsetWithOwnerIndex rrset ownerIndex
      (image.rrsetPlanMetricsWithOwnerLen rrset ownerWire.length)).Sound image qname := by
  have hgrown : GrownBy ((image.visitRrsetRecordsWithOwner rrset ownerWire).map octets)
      (plan.answerSizes image) ((plan.pushAnswerRrsetWithOwnerIndex rrset ownerIndex
        (image.rrsetPlanMetricsWithOwnerLen rrset ownerWire.length)).answerSizes image) :=
    grownBy_append (answerSizes_append_item hcover rfl (fun _ _ => rfl)
      (itemSizes_rrsetWithOwner hown))
  exact { h with
    answer_count := (measures_owned rrset ownerWire).counted hgrown h.answer_count
    answer_bound := (measures_owned rrset ownerWire).bounded h.answer_bound hgrown.2
    body_bound := (measures_owned rrset ownerWire).bounded h.body_bound (hgrown.first _ _)
    items_valid := forall_mem_snoc h.items_valid ⟨hvalid, (List.getElem?_eq_some_iff.mp hown).1⟩
    direct := nofun
    items_cover := h.items_cover_append hcover
    supported := h.supported_mono id hgrown.ne_nil id }

theorem findAnswerWithOwner_spec (h : plan.findAnswerWithOwner rrset ownerWire = some ownerIndex) :
    .rrsetWithOwner rrset ownerIndex ∈ plan.answerItems ∧ plan.ownerOverrides[ownerIndex]? =
      some ownerWire := by
  obtain ⟨item, hmem, hitem⟩ := exists_of_findSome?_eq_some h
  cases item with
  | rrsetWithOwner rrsetId index =>
    dsimp only at hitem
    split at hitem
    next hmatch =>
      obtain rfl := Option.some.inj hitem
      rw [← hmatch.1]
      exact ⟨hmem, hmatch.2⟩
    · simp at hitem
  | _ => simp at hitem

/-- More owners and made up records change nothing for the items before them. -/
theorem Sound.stock (h : plan.Sound image qname) (hopen : plan.directAnswerCandidate = false)
    {owners : List (List UInt8)} {records : List ZoneImageSynthesizedRecord}
    (howners : plan.ownerOverrides <+: owners) (hrecs : plan.dynamicAnswers <+: records)
    (hfits : ∀ ownerWire ∈ owners, FittingName ownerWire)
    (hwell : ∀ record ∈ records, record.WellFormed) (wildcardSynthesized : Bool) :
    Sound image qname
      { plan with wildcardSynthesized, ownerOverrides := owners, dynamicAnswers := records } := by
  set stocked :=
    { plan with wildcardSynthesized, ownerOverrides := owners, dynamicAnswers := records }
  have hsame : ∀ item, plan.ItemValid image item →
      image.visitPlanAnswerItem stocked item = image.visitPlanAnswerItem plan item :=
    fun item hitem => visitItem_grown hitem howners hrecs
  have hmono : ∀ item, plan.ItemValid image item → stocked.ItemValid image item :=
    fun item hitem => hitem.mono howners.length_le hrecs.length_le
  obtain ⟨hadditional, hselected, hwith, hselectedWith⟩ := h.additionals_valid
  have hans : stocked.answerSizes image = plan.answerSizes image := by
    unfold answerSizes visitPlanAnswerRecords
    rw [flatMap_congr fun item hitem => hsame item (h.items_valid item hitem)]
  have hadds : stocked.additionalSizes image = plan.additionalSizes image := by
    unfold additionalSizes visitPlanAdditionalRecords
    rw [flatMap_congr fun entry hentry => hsame _ (hwith entry hentry),
      flatMap_congr fun entry hentry => hsame _ (hselectedWith entry hentry)]
  exact { h with
    answer_count := hans ▸ h.answer_count
    additional_count := hadds ▸ h.additional_count
    answer_bound := hans ▸ h.answer_bound
    body_bound := hans ▸ hadds ▸ h.body_bound
    items_valid := fun item hitem => hmono item (h.items_valid item hitem)
    additionals_valid := ⟨hadditional, hselected, fun entry hentry => hmono _ (hwith entry hentry),
      fun entry hentry => hmono _ (hselectedWith entry hentry)⟩
    overrides_fit := hfits
    dynamic_wellFormed := hwell
    direct := fun hdirect => absurd (hopen.symm.trans hdirect) Bool.false_ne_true
    supported := h.supported_mono id (fun hne => by rwa [hans]) id }

/-- A fresh owner keeps a plan sound. -/
theorem Sound.pushOwner (h : plan.Sound image qname) (hopen : plan.directAnswerCandidate = false)
    (hfits : FittingName ownerWire) : Sound image qname
      { plan with
        wildcardSynthesized := true
        ownerOverrides := plan.ownerOverrides ++ [ownerWire] } :=
  h.stock hopen (prefix_append _ _) (prefix_refl _) (forall_mem_snoc h.overrides_fit hfits)
    h.dynamic_wellFormed true

theorem Sound.pushAnswerRrsetWithOwnerWire (h : plan.Sound image qname)
    (hopen : plan.directAnswerCandidate = false) (hvalid : rrset < image.rrsets.length)
    (hfits : FittingName ownerWire) {grown : ZoneImageLookupPlan} {ownerIndex : ℕ}
    (hgrown : plan.pushAnswerRrsetWithOwnerWire rrset ownerWire
      (image.rrsetPlanMetricsWithOwnerLen rrset ownerWire.length) = (grown, ownerIndex)) :
    grown.Sound image qname ∧ grown.directAnswerCandidate = false ∧
      ownerIndex < grown.ownerOverrides.length := by
  have hitems := h.ensureAnswerItems hopen
  have hopen' : plan.ensureAnswerItems.directAnswerCandidate = false := by simpa using hopen
  unfold ZoneImageLookupPlan.pushAnswerRrsetWithOwnerWire at hgrown
  dsimp only at hgrown
  split at hgrown
  next ownerIndex hfound =>
    obtain ⟨rfl, rfl⟩ := Prod.mk.inj hgrown
    exact ⟨hitems, hopen', (List.getElem?_eq_some_iff.mp (findAnswerWithOwner_spec hfound).2).1⟩
  · obtain ⟨rfl, rfl⟩ := Prod.mk.inj hgrown
    refine ⟨?_, rfl, ?_⟩
    · refine (hitems.pushOwner hopen' hfits).pushAnswerRrsetWithOwnerIndex hvalid ?_ ?_
      · simp
      · exact plan.ensureAnswerItems_covers
    · simp [ZoneImageLookupPlan.pushAnswerRrsetWithOwnerIndex]

theorem visitWithOwner_ne_nil (hrecs : 0 < image.rrsetRecordCount rrset)
    (hown : plan.ownerOverrides[ownerIndex]? = some ownerWire) :
    image.itemSizes plan (.rrsetWithOwner rrset ownerIndex) ≠ [] := by
  rw [itemSizes_rrsetWithOwner hown]
  unfold rrsetRecordCount at hrecs
  unfold visitRrsetRecordsWithOwner
  cases hget : image.rrsets[rrset]? with
  | none => simp [hget] at hrecs
  | some stored =>
    rw [hget] at hrecs
    simpa [visitRrset_spec hget] using ne_nil_of_length_pos hrecs

theorem backed_of_ownedAnswer (hrecs : 0 < image.rrsetRecordCount rrset) (ownerWire : List UInt8)
    (metrics : ZoneImageRrsetPlanMetrics) :
    (plan.pushAnswerRrsetWithOwnerWire rrset ownerWire metrics).1.Backed image := by
  unfold ZoneImageLookupPlan.pushAnswerRrsetWithOwnerWire
  dsimp only
  split
  next ownerIndex hfound =>
    exact backed_of_item (findAnswerWithOwner_spec hfound).1
      (visitWithOwner_ne_nil hrecs (findAnswerWithOwner_spec hfound).2)
  · refine backed_of_item (mem_append_right _ (mem_singleton_self _))
      (visitWithOwner_ne_nil hrecs (?_ : _ = some ownerWire))
    simp [ZoneImageLookupPlan.pushAnswerRrsetWithOwnerIndex]

/-- Appending one record to the answers. -/
theorem Sound.pushAnswerItem (h : plan.Sound image qname) (item : PlanAnswer) (wireLen : ℕ)
    (hcover : plan.answerItems = [] → plan.answerRrsets = [])
    (hgrown : grown = { plan with
      directAnswerCandidate := false
      answerHasRecords := true
      answerRecordCount := addPlanRecordCount plan.answerRecordCount 1
      answerWireUpperBound := addPlanWireUpperBound plan.answerWireUpperBound wireLen
      bodyWireUpperBound := addPlanWireUpperBound plan.bodyWireUpperBound wireLen
      answerItems := plan.answerItems ++ [item] }) (hitem : plan.ItemValid image item)
    (hone : image.itemSizes plan item = [wireLen]) : grown.Sound image qname := by
  have hans : GrownBy [wireLen] (plan.answerSizes image) (grown.answerSizes image) := by
    rw [hgrown]
    exact grownBy_append (answerSizes_append_item hcover rfl (fun _ _ => rfl) hone)
  subst hgrown
  exact { h with
    answer_count := (measures_one wireLen).counted hans h.answer_count
    answer_bound := (measures_one wireLen).bounded h.answer_bound hans.2
    body_bound := (measures_one wireLen).bounded h.body_bound (hans.first _ _)
    items_valid := forall_mem_snoc h.items_valid hitem
    direct := nofun
    items_cover := h.items_cover_append hcover
    supported := h.supported_mono id hans.ne_nil id }

theorem Sound.pushSynthesizedAnswer (h : plan.Sound image qname) {owner target : DomainName}
    (hown : owner.wireLen ≤ 255) (htarget : target.wireLen ≤ 255)
    (fixedFields : ZoneImageRecordFixedFields) :
    (plan.pushSynthesizedAnswer owner fixedFields .singleName target.toWire).Sound image qname := by
  have hitems := h.unmark.ensureAnswerItems rfl
  have hcover := ensureAnswerItems_covers { plan with directAnswerCandidate := false }
  have hopen := ensureAnswerItems_direct { plan with directAnswerCandidate := false }
  unfold ZoneImageLookupPlan.pushSynthesizedAnswer
  dsimp only
  generalize
    ({ plan with directAnswerCandidate := false } : ZoneImageLookupPlan).ensureAnswerItems =
    ready at hitems hcover hopen
  split
  · exact hitems
  have hrec : ZoneImageWireRecord.WellFormed
      ⟨owner.toWire, fixedFields, UInt16.ofNat target.toWire.length, .singleName,
      target.toWire⟩ := by
    have hlen := target.length_toWire
    refine ⟨⟨owner, hown, rfl⟩, ?_, ⟨target, htarget, rfl⟩⟩
    simp only [UInt16.toNat_ofNat']
    omega
  have hstocked := hitems.stock hopen (prefix_refl _) (prefix_append _ _) hitems.overrides_fit
    (forall_mem_snoc hitems.dynamic_wellFormed hrec) ready.wildcardSynthesized
  refine hstocked.pushAnswerItem (.dynamicRecord ready.dynamicAnswers.length)
    (owner.toWire.length + 10 + target.toWire.length) hcover (by simp [hopen]) ?_ ?_
  · simp [ItemValid]
  · simp [itemSizes, visitPlanAnswerItem, octets]

@[simp] theorem pushSynthesizedAnswer_direct (plan : ZoneImageLookupPlan) (owner : DomainName)
    (fixedFields : ZoneImageRecordFixedFields) (rdataEncoding : PackedRdataEncoding)
    (rdata : Rdata) :
    (plan.pushSynthesizedAnswer owner fixedFields rdataEncoding rdata).directAnswerCandidate =
      false := by
  unfold ZoneImageLookupPlan.pushSynthesizedAnswer
  dsimp only
  split <;> simp

theorem Sound.pushSelectedRecordSection (h : plan.Sound image qname)
    (hrec : image.SelectedExists record) {sec : DnssecSection}
    (hbacked : sec = .additional → plan.Backed image) :
    (plan.pushSelectedRecordSection sec record).Sound image qname := by
  have hsize := selectedSizes_eq hrec
  cases sec with
  | answer =>
    exact (h.unmark.ensureAnswerItems rfl).pushAnswerItem (.selectedRecord record) record.wireLen
      (ensureAnswerItems_covers _) (by simp [ZoneImageLookupPlan.pushSelectedRecordSection])
      hrec hsize
  | authority =>
    have hgrown : GrownBy [record.wireLen] (plan.authoritySizes image)
        ((plan.pushSelectedRecordSection .authority record).authoritySizes image) := by
      rw [authoritySizes_eq, authoritySizes_eq]
      exact (grownBy_snoc _ hsize).append_left _
    exact { h with
      authority_count := (measures_one _).counted hgrown h.authority_count
      body_bound := (measures_one _).bounded h.body_bound (hgrown.second _ _)
      authorities_valid := h.authorities_valid.imp_right (forall_mem_snoc · hrec)
      direct := nofun
      supported := h.supported_mono id id hgrown.ne_nil }
  | additional =>
    have hgrown : GrownBy [record.wireLen] (plan.additionalSizes image)
        ((plan.pushSelectedRecordSection .additional record).additionalSizes image) := by
      rw [additionalSizes_eq, additionalSizes_eq]
      exact (((grownBy_snoc _ hsize).append_left _).append_right _).append_right _
    exact { h with
      additional_count := (measures_one _).counted hgrown h.additional_count
      body_bound := (measures_one _).bounded h.body_bound (hgrown.third _)
      additionals_valid := h.additionals_valid.imp_right (And.imp_left (forall_mem_snoc · hrec))
      direct := nofun
      supported := Or.inr (hbacked rfl) }

theorem ensureAnswerItems_owners (plan : ZoneImageLookupPlan) :
    plan.ensureAnswerItems.ownerOverrides = plan.ownerOverrides := by
  unfold ZoneImageLookupPlan.ensureAnswerItems
  split <;> rfl

theorem Sound.pushSelectedAnswerRecordWithOwner (h : plan.Sound image qname)
    (hrec : image.SelectedExists record) (hown : ownerIndex < plan.ownerOverrides.length) :
    (plan.pushSelectedAnswerRecordWithOwner record ownerIndex).Sound image qname := by
  have hvalid : ItemValid image { plan with directAnswerCandidate := false }.ensureAnswerItems
      (.selectedRecordWithOwner record ownerIndex) := by
    refine ⟨hrec, ?_⟩
    rwa [ensureAnswerItems_owners]
  exact (h.unmark.ensureAnswerItems rfl).pushAnswerItem
    (.selectedRecordWithOwner record ownerIndex) _ (ensureAnswerItems_covers _)
    (by simp [ZoneImageLookupPlan.pushSelectedAnswerRecordWithOwner]) hvalid
    (itemSizes_selectedWithOwner hvalid)

theorem Sound.pushSelectedAdditionalRecordWithOwner (h : plan.Sound image qname)
    (hrec : image.SelectedExists record) (hown : ownerIndex < plan.ownerOverrides.length)
    (hbacked : plan.Backed image) :
    (plan.pushSelectedAdditionalRecordWithOwner record ownerIndex).Sound image qname := by
  have hvalid : plan.ItemValid image (.selectedRecordWithOwner record ownerIndex) :=
    ⟨hrec, hown⟩
  have hgrown : GrownBy [plan.selectedWireLenWithOwner record ownerIndex]
      (plan.additionalSizes image)
      ((plan.pushSelectedAdditionalRecordWithOwner record ownerIndex).additionalSizes image) := by
    rw [additionalSizes_eq, additionalSizes_eq]
    refine (grownBy_snoc _ ?_).append_left _
    exact itemSizes_selectedWithOwner hvalid
  exact { h with
    additional_count := (measures_one _).counted hgrown h.additional_count
    body_bound := (measures_one _).bounded h.body_bound (hgrown.third _)
    additionals_valid := h.additionals_valid.imp_right
      (And.imp_right (And.imp_right (forall_mem_snoc · hvalid)))
    direct := nofun
    supported := Or.inr hbacked }

theorem Sound.pushAuthorityRrset (h : plan.Sound image qname)
    (hvalid : rrset < image.rrsets.length) :
    (plan.pushAuthorityRrset rrset (image.rrsetPlanMetrics rrset)).Sound image qname := by
  have hgrown : GrownBy (image.rrsetSizes rrset) (plan.authoritySizes image)
      ((plan.pushAuthorityRrset rrset (image.rrsetPlanMetrics rrset)).authoritySizes image) := by
    rw [authoritySizes_eq, authoritySizes_eq]
    exact (grownBy_snoc _ rfl).append_right _
  exact { h with
    authority_count := (measures_rrset rrset).counted hgrown h.authority_count
    body_bound := (measures_rrset rrset).bounded h.body_bound (hgrown.second _ _)
    authorities_valid := h.authorities_valid.imp_left (forall_mem_snoc · hvalid)
    direct := nofun
    supported := h.supported_mono id id hgrown.ne_nil }

theorem Sound.pushAdditionalRrset (h : plan.Sound image qname)
    (hopen : plan.directAnswerCandidate = false) (hvalid : rrset < image.rrsets.length)
    (hbacked : plan.Backed image) :
    (plan.pushAdditionalRrset rrset (image.rrsetPlanMetrics rrset)).Sound image qname := by
  have hgrown : GrownBy (image.rrsetSizes rrset) (plan.additionalSizes image)
      ((plan.pushAdditionalRrset rrset (image.rrsetPlanMetrics rrset)).additionalSizes image) := by
    rw [additionalSizes_eq, additionalSizes_eq]
    exact (((grownBy_snoc _ rfl).append_right _).append_right _).append_right _
  exact { h with
    additional_count := (measures_rrset rrset).counted hgrown h.additional_count
    body_bound := (measures_rrset rrset).bounded h.body_bound (hgrown.third _)
    additionals_valid := h.additionals_valid.imp_left (forall_mem_snoc · hvalid)
    direct := fun hdirect => absurd (hopen.symm.trans hdirect) Bool.false_ne_true
    supported := Or.inr hbacked }

theorem Sound.pushAdditionalRrsetWithOwner (h : plan.Sound image qname)
    (hopen : plan.directAnswerCandidate = false) (hvalid : rrset < image.rrsets.length)
    (hown : plan.ownerOverrides[ownerIndex]? = some ownerWire) (hbacked : plan.Backed image) :
    (plan.pushAdditionalRrsetWithOwner rrset ownerIndex
      (image.rrsetPlanMetricsWithOwnerLen rrset ownerWire.length)).Sound image qname := by
  have hgrown : GrownBy ((image.visitRrsetRecordsWithOwner rrset ownerWire).map octets)
      (plan.additionalSizes image) ((plan.pushAdditionalRrsetWithOwner rrset ownerIndex
        (image.rrsetPlanMetricsWithOwnerLen rrset ownerWire.length)).additionalSizes image) := by
    rw [additionalSizes_eq, additionalSizes_eq]
    refine ((grownBy_snoc _ ?_).append_left _).append_right _
    exact itemSizes_rrsetWithOwner hown
  exact { h with
    additional_count := (measures_owned rrset ownerWire).counted hgrown h.additional_count
    body_bound := (measures_owned rrset ownerWire).bounded h.body_bound (hgrown.third _)
    additionals_valid := h.additionals_valid.imp_right (And.imp_right (And.imp_left
      (forall_mem_snoc · ⟨hvalid, (List.getElem?_eq_some_iff.mp hown).1⟩)))
    direct := fun hdirect => absurd (hopen.symm.trans hdirect) Bool.false_ne_true
    supported := Or.inr hbacked }

/-- Only the answers are left, and their bound. -/
theorem Sound.setServfail (h : plan.Sound image qname) (termination : LookupTermination) :
    (plan.setServfail termination).Sound image qname := by
  have hauths : (plan.setServfail termination).authoritySizes image = [] :=
    authoritySizes_eq _ _
  have hadds : (plan.setServfail termination).additionalSizes image = [] :=
    additionalSizes_eq _ _
  exact { h with
    authority_count := by rw [hauths]; rfl
    additional_count := by rw [hadds]; rfl
    body_bound := by rw [hauths, hadds]; exact h.answer_bound
    authorities_valid := by simp [ZoneImageLookupPlan.setServfail]
    additionals_valid := by simp [ZoneImageLookupPlan.setServfail]
    direct := nofun
    supported := Or.inl ⟨rfl, rfl, rfl, rfl⟩ }

theorem Sound.setDnssecProofServfail (h : plan.Sound image qname) :
    plan.setDnssecProofServfail.Sound image qname :=
  { h.setServfail .malformedDname with direct := nofun }

end ZoneImageLookupPlan

end BoronDns
