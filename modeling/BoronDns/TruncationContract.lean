import BoronDns.Truncation

/-!
What a requester may rely on when a response has to fit in a datagram. The
records that are left are the first answers, some of the authorities and whole
additional RRsets from the front; the header counts them; and TC is set exactly
when an answer, an authority or the glue of a referral is missing. Every
response keeps this contract except for a direct copy of an RRset some of whose
records have a TTL of their own.
-/

namespace BoronDns

open Bytes List Option

/-- The first records of a list, up to a place where another RRset starts. -/
structure RrsetPrefix (kept all : List ZoneImageWireRecord) : Prop where
  kept_first : kept <+: all
  boundary : ∀ last ∈ kept.getLast?, ∀ next ∈ all[kept.length]?, sameRrset last next = false

theorem RrsetPrefix.nil (all : List ZoneImageWireRecord) : RrsetPrefix [] all := by
  constructor
  · exact nil_prefix
  · simp

theorem RrsetPrefix.refl (all : List ZoneImageWireRecord) : RrsetPrefix all all :=
  ⟨prefix_refl _, by simp⟩

/-- A retry keeps a part of the records of a plan and knows what it dropped. -/
structure RetryState.Keeps (answers authorities additionals : List ZoneImageWireRecord)
    (glue : Bool) (state : RetryState) : Prop where
  answers_first : state.answers <+: answers
  authorities_sublist : state.authorities.Sublist authorities
  additionals_first : RrsetPrefix state.additionals additionals
  counts_eq : state.counts = .ofLengths state.answers.length state.authorities.length
    state.additionals.length
  indices_ascending : state.removableAuthorityIndices.Pairwise (· < ·)
  indices_lt : ∀ index ∈ state.removableAuthorityIndices, index < state.authorities.length
  truncated_iff : state.truncated = true ↔ state.answers.length < answers.length ∨
    state.authorities.length < authorities.length ∨
    (glue = true ∧ state.additionals.length < additionals.length)

section Retry

variable {answers authorities additionals : List ZoneImageWireRecord} {glue : Bool}
  {state next : RetryState}

theorem RetryState.Keeps.removes (h : state.Keeps answers authorities additionals glue)
    (hans : answers.length ≤ u16Max) (hauths : authorities.length ≤ u16Max)
    (hadds : additionals.length ≤ u16Max) (hstep : Removes glue state next) :
    next.Keeps answers authorities additionals glue := by
  have hanswersLe := h.answers_first.length_le
  have hauthoritiesLe := h.authorities_sublist.length_le
  have hadditionalsLe := h.additionals_first.kept_first.length_le
  cases hstep with
  | @additionals kept removed hsplit hremoved hboundary =>
    have hlen : state.additionals.length = kept.length + removed.length := by simp [hsplit]
    have hpos : 0 < removed.length := length_pos_iff.mpr hremoved
    obtain ⟨rest, hrest⟩ := h.additionals_first.kept_first
    rw [hsplit, append_assoc] at hrest
    refine ⟨h.answers_first, h.authorities_sublist, ⟨⟨_, hrest⟩, fun last hlast next hnext => ?_⟩,
      ?_, h.indices_ascending, h.indices_lt, ?_⟩
    · obtain ⟨first, more, rfl⟩ := exists_cons_of_ne_nil hremoved
      refine hboundary last hlast next ?_
      rw [← hrest, List.getElem?_append_right le_rfl, Nat.sub_self] at hnext
      exact hnext
    · dsimp only
      rw [h.counts_eq, hlen]
      exact ZoneImageRetrySectionCounts.foldl_decrementAdditional removed (by omega)
    · have hold := h.truncated_iff
      simp only [Bool.or_eq_true, hold]
      constructor
      · rintro ((hdropped | hdropped | hdropped) | hglue)
        · exact Or.inl hdropped
        · exact Or.inr (Or.inl hdropped)
        · exact Or.inr (Or.inr ⟨hdropped.1, by omega⟩)
        · exact Or.inr (Or.inr ⟨hglue, by omega⟩)
      · rintro (hdropped | hdropped | hdropped)
        · exact Or.inl (Or.inl hdropped)
        · exact Or.inl (Or.inr (Or.inl hdropped))
        · exact Or.inr hdropped.1
  | @removable indices index hnone hindices hindex =>
    have hlen := length_eraseIdx_of_lt hindex
    have hascending := h.indices_ascending
    rw [hindices, pairwise_append] at hascending
    refine ⟨h.answers_first, (eraseIdx_sublist _ _).trans h.authorities_sublist,
      h.additionals_first, ?_, hascending.1, ?_, ?_⟩
    · dsimp only
      rw [h.counts_eq, hlen]
      obtain ⟨count, hcount⟩ : ∃ count, state.authorities.length = count + 1 :=
        ⟨_, (Nat.succ_pred_eq_of_pos (by omega)).symm⟩
      rw [hcount]
      exact ZoneImageRetrySectionCounts.decrementAuthority_ofLengths (by omega)
    · intro other hother
      have := hascending.2.2 other hother index (by simp)
      dsimp only
      omega
    · simp only [true_iff]
      exact Or.inr (Or.inl (by omega))
  | @answer kept last hnone hsplit =>
    have hlen : state.answers.length = kept.length + 1 := by simp [hsplit]
    have hkept : kept <+: state.answers := ⟨[last], hsplit.symm⟩
    refine ⟨hkept.trans h.answers_first, h.authorities_sublist, h.additionals_first, ?_,
      h.indices_ascending, h.indices_lt, ?_⟩
    · dsimp only
      rw [h.counts_eq, hlen]
      simp only [ZoneImageRetrySectionCounts.decrementAnswer, ZoneImageRetrySectionCounts.ofLengths,
        ZoneImageRetrySectionCounts.decrement_succ (show kept.length + 1 ≤ u16Max by omega)]
      rfl
    · simp only [true_iff]
      exact Or.inl (by omega)
  | @authority kept last hnone hindices hsplit =>
    have hlen : state.authorities.length = kept.length + 1 := by simp [hsplit]
    have hkept : kept.Sublist state.authorities := by
      rw [hsplit]
      exact sublist_append_left _ _
    refine ⟨h.answers_first, hkept.trans h.authorities_sublist, h.additionals_first, ?_,
      h.indices_ascending, ?_, ?_⟩
    · dsimp only
      rw [h.counts_eq, hlen]
      exact ZoneImageRetrySectionCounts.decrementAuthority_ofLengths (by omega)
    · simp [hindices]
    · simp only [true_iff]
      exact Or.inr (Or.inl (by omega))

/-- A retry only stops for want of records when none is left. -/
theorem RetryState.Keeps.nothing_left (h : state.Keeps answers authorities additionals glue)
    (hstep : retryStep glue state = none) :
    state.answers = [] ∧ state.authorities = [] ∧ state.additionals = [] := by
  unfold retryStep at hstep
  split at hstep
  · simp at hstep
  rename_i hadds
  split at hstep
  next index hlast =>
    rw [if_pos (h.indices_lt index (mem_of_getLast? hlast))] at hstep
    simp at hstep
  split at hstep
  · simp at hstep
  rename_i hans
  split at hstep
  · simp at hstep
  rename_i hauths
  simp only [not_not] at hadds hans hauths
  exact ⟨hans, hauths, hadds⟩

/-- What a retry sends was built from a part of the plan's records that fits,
or from no record at all. -/
theorem retryLoop_keeps {build : RetryState → Option (List UInt8)} {udpCeiling : ℕ}
    (hans : answers.length ≤ u16Max) (hauths : authorities.length ≤ u16Max)
    (hadds : additionals.length ≤ u16Max)
    (h : state.Keeps answers authorities additionals glue) {bytes : List UInt8}
    (hloop : retryLoop build udpCeiling glue state = some bytes) :
    ∃ final : RetryState, final.Keeps answers authorities additionals glue ∧
      build final = some bytes ∧ (bytes.length ≤ udpCeiling ∨
        final.answers = [] ∧ final.authorities = [] ∧ final.additionals = []) := by
  induction hsize : state.size using Nat.strong_induction_on generalizing state with
  | _ size ih =>
    rw [retryLoop] at hloop
    split at hloop
    · simp at hloop
    rename_i response hbuild
    split at hloop
    next hfits =>
      obtain rfl := some.inj hloop
      exact ⟨state, h, hbuild, Or.inl hfits⟩
    split at hloop
    next hstep =>
      obtain rfl := some.inj hloop
      exact ⟨state, h, hbuild, Or.inr (h.nothing_left hstep)⟩
    next next hstep =>
      have hremoves := retryStep_removes hstep
      exact ih next.size (hsize ▸ hremoves.size_lt)
        (h.removes hans hauths hadds hremoves) hloop rfl

end Retry

/-- The datagram read as `answers`, `authorities` and `additionals` is an honest
part of the plan's response. -/
structure HonestDatagram (image : ZoneImage) (plan : ZoneImageLookupPlan) (id : UInt16)
    (question : Question) (metadata : RequestMetadata) (udpCeiling : ℕ) (bytes : List UInt8)
    (flags : UInt16) (answers authorities additionals : List ZoneImageWireRecord) : Prop where
  reads : MessageReads bytes id flags question metadata answers authorities additionals
  fits : bytes.length ≤ udpCeiling ∨ answers = [] ∧ authorities = [] ∧ additionals = []
  answers_first : answers <+: image.visitPlanAnswerRecords plan
  authorities_sublist : authorities.Sublist (image.visitPlanAuthorityRecords plan)
  additionals_first : RrsetPrefix additionals (image.visitPlanAdditionalRecords plan)
  truncated_iff : flags &&& 0x0200 ≠ 0 ↔
    answers.length < (image.visitPlanAnswerRecords plan).length ∨
    authorities.length < (image.visitPlanAuthorityRecords plan).length ∨
    ((flags &&& 0x0400 = 0 ∧ ∃ record ∈ image.visitPlanAuthorityRecords plan,
        record.fixedFields.rrType = RecordType.ns) ∧
      additionals.length < (image.visitPlanAdditionalRecords plan).length)

/-- `bytes` can be read as an honest part of the plan's response. -/
def KeepsDatagramContract (image : ZoneImage) (plan : ZoneImageLookupPlan) (id : UInt16)
    (question : Question) (metadata : RequestMetadata) (udpCeiling : ℕ) (bytes : List UInt8) :
    Prop :=
  ∃ flags answers authorities additionals, HonestDatagram image plan id question metadata
    udpCeiling bytes flags answers authorities additionals

theorem MessageReads.of_edns {bytes : List UInt8} {id flags : UInt16} {question : Question}
    {metadata other : RequestMetadata} {answers authorities additionals : List ZoneImageWireRecord}
    (h : MessageReads bytes id flags question metadata answers authorities additionals)
    (hedns : other.edns = metadata.edns) :
    MessageReads bytes id flags question other answers authorities additionals := by
  obtain ⟨hcounts, hheader, hbody⟩ := h
  refine ⟨by rwa [hedns], by rwa [hedns], ?_⟩
  unfold OptReads at hbody ⊢
  rwa [hedns]

section Planned

variable {image : ZoneImage} {qname : DomainName} {plan : ZoneImageLookupPlan} {question : Question}
  {metadata : RequestMetadata} {options : AnswerOptions} {udpCeiling : ℕ}
  {shape : ZoneImagePlanResponseShape} {header : Header}

theorem keeps_start (hsound : plan.Sound image qname) (hshape : plan.responseShape = some shape)
    (glue : Bool) : (RetryState.start image plan shape).Keeps (image.visitPlanAnswerRecords plan)
      (image.visitPlanAuthorityRecords plan) (image.visitPlanAdditionalRecords plan) glue := by
  obtain ⟨-, rfl⟩ := hsound.responseShape_eq hshape
  refine ⟨prefix_refl _, List.Sublist.refl _, RrsetPrefix.refl _, rfl,
    List.Pairwise.filter _ pairwise_lt_range, ?_, ?_⟩
  · intro index hindex
    have := mem_range.mp (mem_filter.mp hindex).1
    simpa [RetryState.start, ZoneImage.visitPlanAuthorityRecords] using this
  · simp [RetryState.start]

variable {bytes : List UInt8} {state : RetryState}

/-- A response built from a part of the plan's records reads back as that part. -/
theorem RetryState.Keeps.reads {glue : Bool}
    (h : state.Keeps (image.visitPlanAnswerRecords plan) (image.visitPlanAuthorityRecords plan)
      (image.visitPlanAdditionalRecords plan) glue) (hquest : question.Parsed)
    (hsound : plan.Sound image qname) (hfit : image.RecordsFit) (hsections : plan.SectionsFit image)
    {bits : UInt16}
    (hbytes : buildZoneImageResponseFromWireRecords header question bits metadata options
      (zoneImageResponseSizing udpCeiling metadata options) state = some bytes) :
    MessageReads bytes header.id (header.responseFlagsFromPlanBits bits state.truncated) question
      metadata state.answers state.authorities state.additionals := by
  obtain ⟨hans, hauths, hadds⟩ := hsections
  have hanswersLe := h.answers_first.length_le
  have hauthoritiesLe := h.authorities_sublist.length_le
  have hadditionalsLe := h.additionals_first.kept_first.length_le
  -- the two places that add the OPT record to the counts agree
  have hcounts : (ZoneImageRetrySectionCounts.ofLengths state.answers.length
      state.authorities.length
      state.additionals.length).sectionCountHeaderBytesWithExtraAdditional
      (UInt16.ofNat metadata.optCount) = _ :=
    sectionCounts_withOpt bits state.answers.length state.authorities.length
      (hadditionalsLe.trans hadds) 0 metadata
  have hwell := hsound.records_wellFormed hfit
  have hrecs : ∀ record ∈ state.answers ++ state.authorities ++ state.additionals,
      record.WellFormed := by
    have hsub := (h.answers_first.sublist.append h.authorities_sublist).append
      h.additionals_first.kept_first.sublist
    exact fun record hrec => hwell record (hsub.subset hrec)
  rw [buildZoneImageResponseFromWireRecords, h.counts_eq, zoneImageResponseSizing,
    zoneImageEdnsSizing_additionalCount, hcounts] at hbytes
  split at hbytes
  next hle =>
    obtain rfl := some.inj hbytes
    exact zoneImageResponseBytes_reads header hquest bits state.truncated hrecs metadata
      options udpCeiling ⟨hanswersLe.trans hans, hauthoritiesLe.trans hauths, hle⟩
  · simp at hbytes

theorem RetryState.Keeps.honest
    (h : state.Keeps (image.visitPlanAnswerRecords plan) (image.visitPlanAuthorityRecords plan)
      (image.visitPlanAdditionalRecords plan)
      (requiredReferralGlue image plan (plan.rcode.responseFlagBits plan.authoritative)))
    (hquest : question.Parsed) (hsound : plan.Sound image qname) (hfit : image.RecordsFit)
    (hsections : plan.SectionsFit image)
    (hbytes : buildZoneImageResponseFromWireRecords header question
      (plan.rcode.responseFlagBits plan.authoritative) metadata options
      (zoneImageResponseSizing udpCeiling metadata options) state = some bytes)
    (hfits : bytes.length ≤ udpCeiling ∨ state.answers = [] ∧ state.authorities = [] ∧
      state.additionals = []) :
    KeepsDatagramContract image plan header.id question metadata udpCeiling bytes := by
  refine ⟨_, _, _, _, h.reads hquest hsound hfit hsections hbytes, hfits, h.answers_first,
    h.authorities_sublist, h.additionals_first, ?_⟩
  rw [responseFlags_tc, responseFlags_aa, h.truncated_iff]
  simp [requiredReferralGlue]

/-- The first response is the one of a retry that has dropped nothing. -/
theorem buildFromPlanRecords_eq_start (hsound : plan.Sound image qname)
    (hshape : plan.responseShape = some shape) (sizing : ZoneImageResponseSizing) :
    buildZoneImageResponseFromPlanRecords header question image plan shape metadata
      options false sizing = buildZoneImageResponseFromWireRecords header question
        (plan.rcode.responseFlagBits plan.authoritative) metadata options sizing
        (RetryState.start image plan shape) := by
  obtain ⟨-, rfl⟩ := hsound.responseShape_eq hshape
  rfl

theorem retryZoneImageResponse_honest (hquest : question.Parsed)
    (hsound : plan.Sound image qname) (hfit : image.RecordsFit)
    (hshape : plan.responseShape = some shape)
    (hbytes : retryZoneImageResponse header question image plan shape metadata options
      (zoneImageResponseSizing udpCeiling metadata options) = some bytes) :
    KeepsDatagramContract image plan header.id question metadata udpCeiling bytes := by
  have hstart := keeps_start hsound hshape
    (requiredReferralGlue image plan (plan.rcode.responseFlagBits plan.authoritative))
  obtain ⟨hsections, hshapeEq⟩ := hsound.responseShape_eq hshape
  have hbits : shape.responseFlagBits = plan.rcode.responseFlagBits plan.authoritative := by
    rw [hshapeEq]
  rw [retryZoneImageResponse, hbits] at hbytes
  obtain ⟨final, hkeeps, hbuild, hfits⟩ :=
    retryLoop_keeps hsections.1 hsections.2.1 hsections.2.2 hstart hbytes
  exact hkeeps.honest hquest hsound hfit hsections hbuild hfits

theorem KeepsDatagramContract.of_edns {other : RequestMetadata} {id : UInt16}
    (h : KeepsDatagramContract image plan id question other udpCeiling bytes)
    (hedns : metadata.edns = other.edns) :
    KeepsDatagramContract image plan id question metadata udpCeiling bytes := by
  obtain ⟨flags, answers, authorities, additionals, hhonest⟩ := h
  exact ⟨flags, answers, authorities, additionals, hhonest.reads.of_edns hedns, hhonest.fits,
    hhonest.answers_first, hhonest.authorities_sublist, hhonest.additionals_first,
    hhonest.truncated_iff⟩

theorem buildTruncatedZoneImageResponse_honest (hquest : question.Parsed)
    (hsound : plan.Sound image qname) (hfit : image.RecordsFit)
    (hshape : plan.responseShape = some shape)
    (hbytes : buildTruncatedZoneImageResponse header question image plan shape metadata options
      (zoneImageResponseSizing udpCeiling metadata options) = some bytes) :
    KeepsDatagramContract image plan header.id question metadata udpCeiling bytes := by
  obtain ⟨hsections, -⟩ := hsound.responseShape_eq hshape
  unfold buildTruncatedZoneImageResponse at hbytes
  split at hbytes
  · dsimp only at hbytes
    have hstripped : KeepsDatagramContract image plan header.id question
        metadata.withoutExtendedDnsError udpCeiling bytes := by
      split at hbytes
      · simp at hbytes
      rename_i response hbuild
      split at hbytes
      next hle =>
        obtain rfl := some.inj hbytes
        rw [buildFromPlanRecords_eq_start hsound hshape] at hbuild
        exact (keeps_start hsound hshape _).honest hquest hsound hfit hsections hbuild
          (Or.inl hle)
      · exact retryZoneImageResponse_honest hquest hsound hfit hshape hbytes
    exact hstripped.of_edns rfl
  · exact retryZoneImageResponse_honest hquest hsound hfit hshape hbytes

/-- A plan that cannot be counted has an answer or an authority to drop. -/
theorem dropped_of_not_sectionsFit (hsound : plan.Sound image qname)
    (h : ¬ plan.SectionsFit image) :
    0 < (image.visitPlanAnswerRecords plan).length ∨ 0 <
      (image.visitPlanAuthorityRecords plan).length := by
  by_cases hans : (image.visitPlanAnswerRecords plan).length ≤ u16Max
  · by_cases hauths : (image.visitPlanAuthorityRecords plan).length ≤ u16Max
    · have hadds : ¬ (image.visitPlanAdditionalRecords plan).length ≤ u16Max :=
        fun hle => h ⟨hans, hauths, hle⟩
      rcases hsound.supported with hnone | hbacked
      · simp [hnone.visit] at hadds
      · simpa [ZoneImageLookupPlan.Backed, ZoneImageLookupPlan.answerSizes,
          ZoneImageLookupPlan.authoritySizes, length_pos_iff] using hbacked
    · right
      omega
  · left
    omega

theorem buildEmptyResponseInner_honest (hquest : question.Parsed)
    (hsound : plan.Sound image qname) (hsections : ¬ plan.SectionsFit image) :
    KeepsDatagramContract image plan header.id question metadata udpCeiling
      (buildEmptyResponseInner header plan.rcode plan.authoritative true question metadata options
        udpCeiling (zoneImageEdnsSizing metadata options)) := by
  have hcounts : ([] : List ZoneImageWireRecord).length ≤ 65535 ∧
      ([] : List ZoneImageWireRecord).length ≤ 65535 ∧ ([] : List ZoneImageWireRecord).length +
        (if metadata.edns.isSome then 1 else 0) ≤ 65535 := by
    refine ⟨by simp, by simp, ?_⟩
    split <;> simp
  have hreads := zoneImageResponseBytes_reads header hquest
    (plan.rcode.responseFlagBits plan.authoritative) true (by simp) metadata options udpCeiling
    hcounts
  simp only [length_nil, Nat.zero_add, append_nil] at hreads
  unfold buildEmptyResponseInner
  rw [zoneImageEdnsSizing_additionalCount]
  refine ⟨_, [], [], [], hreads, Or.inr ⟨rfl, rfl, rfl⟩, nil_prefix, nil_sublist _, .nil _, ?_⟩
  have hdropped := dropped_of_not_sectionsFit hsound hsections
  rw [responseFlags_tc]
  simp only [length_nil, true_iff]
  rcases hdropped with hdropped | hdropped
  · exact Or.inl hdropped
  · exact Or.inr (Or.inl hdropped)

/-- Every response that is not a direct copy keeps the contract. -/
theorem buildPlannedZoneImageResponse_honest (hquest : question.Parsed)
    (hsound : plan.Sound image qname) (hfit : image.RecordsFit) (hudp : options.transport = .udp)
    (hbytes : buildPlannedZoneImageResponse header question image plan metadata options
      (zoneImageResponseSizing udpCeiling metadata options) = some bytes) :
    KeepsDatagramContract image plan header.id question metadata udpCeiling bytes := by
  unfold buildPlannedZoneImageResponse at hbytes
  split at hbytes
  next hshape =>
    rw [if_pos hudp] at hbytes
    obtain rfl := some.inj hbytes
    refine buildEmptyResponseInner_honest hquest hsound ?_
    rw [← hsound.responseShape_isSome, hshape]
    simp
  rename_i shape hshape
  split at hbytes
  · simp at hbytes
  rename_i response hbuild
  split at hbytes
  · exact buildTruncatedZoneImageResponse_honest hquest hsound hfit hshape hbytes
  next hshort =>
    obtain rfl := some.inj hbytes
    obtain ⟨hsections, -⟩ := hsound.responseShape_eq hshape
    rw [buildFromPlanRecords_eq_start hsound hshape] at hbuild
    refine (keeps_start hsound hshape _).honest hquest hsound hfit hsections hbuild (Or.inl ?_)
    by_contra hlong
    exact hshort ⟨hudp, not_le.mp hlong⟩

end Planned

end BoronDns
