import BoronDns.DirectAnswer

/-!
The short way to an answer against the general one. A direct plan is made from its own
checks for a cut and a DNAME above the name, and the response copies the RRset behind
the question. The plan is the one the general lookup makes, except below a DNAME at the
apex of another class than IN, which the check does not look at; and the copy reads
back as the general response does, except for records with a TTL of their own.
-/

namespace BoronDns

open Bytes List Option ZoneImage Nat RecordType

variable {node rrsetId : ℕ} {hint : Bool} {rrset : ImageRrset}

namespace ZoneImage

variable {image : ZoneImage} {paths : List (List Label)} {qname : DomainName}
  {qtype qclass : UInt16}

theorem Paths.exists_path (h : image.Paths paths) {entry : NameNode}
    (hnode : image.nodes[node]? = some entry) : ∃ path, paths[node]? = some path := by
  have hbound := (List.getElem?_eq_some_iff.mp hnode).1
  rw [← length_map, ← h.shape.length_eq] at hbound
  exact ⟨_, List.getElem?_eq_getElem hbound⟩

theorem Paths.nodeParent_lt (h : image.Paths paths) (hne : node ≠ 0) :
    image.nodeParent node < node := by
  unfold nodeParent
  cases hnode : image.nodes[node]? with
  | none => exact pos_of_ne_zero hne
  | some entry =>
    obtain ⟨path, hpath⟩ := h.exists_path hnode
    rcases eq_nil_or_concat path with rfl | ⟨front, label, rfl⟩
    · exact absurd (h.shape.index_unique hpath h.shape.root) hne
    · rw [concat_eq_append] at hpath
      obtain ⟨parent, hlt, -, hparent⟩ := h.shape.parent node front label hpath
      rw [List.getElem?_map, hnode] at hparent
      obtain rfl : entry.build.parent = parent := some.inj hparent
      exact hlt

theorem dnameBlocksWalk_fuel (hparent : ∀ node, node ≠ 0 → image.nodeParent node < node) (node : ℕ)
    {fuel : ℕ} (h : node ≤ fuel) :
    image.dnameBlocksWalk qclass fuel node = image.dnameBlocksWalk qclass node node := by
  induction node using Nat.strong_induction_on generalizing fuel with
  | _ node ih =>
    cases node with
    | zero =>
      cases fuel with
      | zero => rfl
      | succ fuel => exact if_pos rfl
    | succ node =>
      obtain ⟨fuel, rfl⟩ := exists_eq_succ_of_ne_zero (show fuel ≠ 0 by omega)
      have hless := hparent (node + 1) (succ_ne_zero node)
      rw [dnameBlocksWalk, dnameBlocksWalk,
        ih _ hless (show image.nodeParent (node + 1) ≤ fuel by omega),
        ih _ hless (show image.nodeParent (node + 1) ≤ node by omega)]

/-- A DNAME at the root node is met by the general walk from any node below it. -/
theorem dnameWalk_isSome (hparent : ∀ node, node ≠ 0 → image.nodeParent node < node)
    (hapex : (image.findRrsetAtNode 0 dname qclass).isSome = true) {exactNode : ℕ}
    (hexact : exactNode ≠ 0) (node : ℕ) {fuel : ℕ} (hfuel : node < fuel) (first : Option ℕ) :
    (image.dnameWalk (some exactNode) qclass fuel node first).isSome = true := by
  induction node using Nat.strong_induction_on generalizing fuel first with
  | _ node ih =>
    obtain ⟨fuel, rfl⟩ := exists_eq_succ_of_ne_zero (show fuel ≠ 0 by omega)
    rw [dnameWalk]
    by_cases hzero : node = 0
    · rw [if_pos hzero, hzero, if_neg fun h => hexact (some.inj h).symm, isSome_or, hapex,
        Bool.true_or]
    · rw [if_neg hzero]
      have hless := hparent node hzero
      exact ih _ hless (by omega) _

/-- Without a DNAME at the root node, the walk of the check sees what the general walk sees. -/
theorem dnameWalk_none (hparent : ∀ node, node ≠ 0 → image.nodeParent node < node)
    (hapex : image.findRrsetAtNode 0 dname qclass = none) {exactNode : ℕ} (node : ℕ)
    (hbelow : node < exactNode) {fuel : ℕ} (hfuel : node < fuel)
    (hclear : image.dnameBlocksWalk qclass node node = false) :
    image.dnameWalk (some exactNode) qclass fuel node none = none := by
  induction node using Nat.strong_induction_on generalizing fuel with
  | _ node ih =>
    obtain ⟨fuel, rfl⟩ := exists_eq_succ_of_ne_zero (show fuel ≠ 0 by omega)
    have hother : ¬ some node = some exactNode := fun h => absurd (some.inj h) (by omega)
    rw [dnameWalk, if_neg hother]
    cases node with
    | zero => rw [if_pos rfl, hapex, or_none]
    | succ node =>
      rw [dnameBlocksWalk, if_neg (succ_ne_zero node)] at hclear
      have hless := hparent (node + 1) (succ_ne_zero node)
      split at hclear
      · cases hclear
      next hnone =>
        rw [dnameBlocksWalk_fuel hparent _ (show image.nodeParent (node + 1) ≤
          node by omega)] at hclear
        rw [if_neg (succ_ne_zero node), not_isSome_iff_eq_none.mp hnone, or_none]
        exact ih _ hless (by omega) (by omega) hclear

/-- The class has its covers noted at the nodes. -/
def dnamePolicyIsNoted (image : ZoneImage) (qclass : UInt16) : Prop :=
  qclass = classIn ∨ (qclass = classAny ∧ image.anyClassDnamePolicyIsInOnly = true)

/-- A DNAME at the apex above the name that the direct plan's check does not look at. -/
def ApexDnameOverlooked (image : ZoneImage) (qname : DomainName) (qclass : UInt16) : Prop :=
  ¬ image.dnamePolicyIsNoted qclass ∧ (image.findRrsetAtNode 0 dname qclass).isSome = true ∧
    qname.lowerLabels ≠ image.origin.lowerLabels

theorem findNode_eq_zero (hname : qname.lowerLabels = image.origin.lowerLabels)
    (hnode : image.findNodeWithAsciiLowercaseHint qname hint = some node) : node = 0 := by
  have hlen : qname.labels.length = image.origin.labels.length := by
    have := congrArg List.length hname
    simpa only [DomainName.length_lowerLabels, DomainName.labelCount] using this
  unfold findNodeWithAsciiLowercaseHint at hnode
  rw [relativeLabelSlice_of_inZone (findNode_inZone hnode), hlen, Nat.sub_self] at hnode
  exact (some.inj hnode).symm

/-- A name that is not blocked has no DNAME above it. -/
theorem dnameForNode_none (hpaths : image.Paths paths)
    (hnode : image.findNodeWithAsciiLowercaseHint qname hint = some node)
    (hclear : image.coveringDnameBlocksDirectAnswer node qclass = false)
    (hapex : ¬ image.ApexDnameOverlooked qname qclass) :
    image.queryDname (some node) (some node) qclass = none := by
  unfold coveringDnameBlocksDirectAnswer at hclear
  unfold queryDname
  split at hclear
  next habsent => rw [if_neg (by simpa using habsent)]
  rename_i hpresent
  rw [if_pos (by simpa using hpresent), bind_some, dnameForNode]
  split at hclear
  next hnoted =>
    rw [if_pos hnoted, if_pos rfl]
    exact not_isSome_iff_eq_none.mp (by simpa using hclear)
  next hwalked =>
    rw [if_neg hwalked, dnameWalk, if_pos rfl]
    have hparent : ∀ node, node ≠ 0 → image.nodeParent node < node :=
      fun node hne => hpaths.nodeParent_lt hne
    by_cases hzero : node = 0
    · rw [if_pos hzero]
    · rw [if_neg hzero]
      have hnone : image.findRrsetAtNode 0 dname qclass = none := by
        by_contra hsome
        refine hapex ⟨hwalked, isSome_iff_ne_none.mpr hsome,
          fun hname => hzero (findNode_eq_zero hname hnode)⟩
      exact dnameWalk_none hparent hnone _ (hparent node hzero) (hparent node hzero) hclear

/-- A DNAME that is overlooked is found by the general lookup. -/
theorem dnameForNode_isSome (hpaths : image.Paths paths) (hhint : qname.LowercaseHint hint)
    (hnode : image.findNodeWithAsciiLowercaseHint qname hint = some node)
    (h : image.ApexDnameOverlooked qname qclass) :
    (image.queryDname (some node) (some node) qclass).isSome = true := by
  obtain ⟨hwalked, hapex, hbelow⟩ := h
  obtain ⟨rrsetId, hrrset⟩ := isSome_iff_exists.mp hapex
  obtain ⟨rrset, -, hget, htype, -⟩ := findRrsetAtNode_spec hrrset
  have hpresent : image.lowRrtypeMayExist dname = true := by
    rw [lowRrtypeMayExist, Bool.or_eq_true, List.any_eq_true]
    exact .inr ⟨rrset, mem_of_getElem? hget, by simpa using htype⟩
  have hne : node ≠ 0 := by
    rintro rfl
    have hzone := findNode_inZone hnode
    have hpath := (hpaths.findNode_iff hhint hzone 0).mp hnode
    have hroot := some.inj (hpaths.shape.root.symm.trans hpath)
    refine hbelow (ownerPath_inj hzone ((DomainName.isEqualOrSubdomainOf_iff _ _).mpr
      (suffix_refl _)) ?_)
    rw [← hroot, ownerPath, Nat.sub_self, take_zero]
    rfl
  unfold dnamePolicyIsNoted at hwalked
  rw [queryDname, if_pos hpresent, bind_some, dnameForNode, if_neg hwalked]
  exact dnameWalk_isSome (fun node hne => hpaths.nodeParent_lt hne) hapex hne node
    (lt_succ_self node) none

/-- An RRset found at a node has as many labels as the node is deep. -/
theorem nodeOwnsPolicyRrset_of_found (hpaths : image.Paths paths) (hbuilt : image.WellBuilt)
    {rrType : UInt16} (h : image.findRrsetAtNode node rrType qclass = some rrsetId) :
    image.nodeOwnsPolicyRrset node rrsetId = true := by
  obtain ⟨rrset, hmem, hget, -, -⟩ := findRrsetAtNode_spec h
  have hzone := DomainName.isEqualOrSubdomainOf_iff rrset.owner image.origin |>.mp
    (hbuilt.in_zone rrset (mem_of_getElem? hget))
  have hlen := hzone.length_le
  simp only [DomainName.length_lowerLabels] at hlen
  cases hnode : image.nodes[node]? with
  | none =>
    rw [rrsetsAtNode, hnode] at hmem
    exact absurd hmem not_mem_nil
  | some entry =>
    obtain ⟨path, hpath⟩ := hpaths.exists_path hnode
    have hdepth := hpaths.shape.depth node _ hpath
    rw [List.getElem?_map, hnode] at hdepth
    rw [hpaths.at_node node _ hpath] at hmem
    have hown := of_decide_eq_true (mem_filter.mp hmem).2
    have hcount : entry.build.depth = rrset.owner.labelCount - image.origin.labelCount := by
      rw [some.inj hdepth, ← hown, ownerPath, length_reverse, length_map, length_take,
        min_eq_left (sub_le _ _)]
      rfl
    rw [nodeOwnsPolicyRrset, hnode]
    rw [rrsetLabelCount, hget, beq_iff_eq]
    show rrset.owner.labelCount = _
    omega

/-- A name that is not blocked is not below a cut. -/
theorem queryCut_none (hpaths : image.Paths paths) (hbuilt : image.WellBuilt)
    (hclear : image.coveringDelegationBlocksDirectAnswer node qtype qclass = false)
    (dname : Option ℕ) : image.queryCut (some node) (some node) qtype qclass dname = none := by
  unfold coveringDelegationBlocksDirectAnswer at hclear
  rw [queryCut, bind_some]
  cases hdelegation : image.delegationForNode node qclass with
  | none => rfl
  | some delegation =>
    rw [hdelegation] at hclear
    dsimp only at hclear
    have hds : qtype = ds := by
      by_contra hother
      rw [if_pos hother] at hclear
      cases hclear
    rw [if_neg (not_not_intro hds)] at hclear
    have howns : image.nodeOwnsPolicyRrset node delegation = true := by
      split at hclear
      · simpa using hclear
      · exact nodeOwnsPolicyRrset_of_found hpaths hbuilt (by simpa using hclear)
    rw [bind_some, queryIsDsAtDelegationOwner, hds, howns]
    simp

variable {plan : ZoneImageLookupPlan}

/-- When a direct plan is made, and what it is. -/
theorem lookupDirectAnswerPlan_some
    (hdirect : image.lookupDirectAnswerPlan qname qtype qclass hint = some plan) :
    qtype ≠ RecordType.any ∧ rrTypeMayHaveAdditionalAddressTarget qtype = false ∧
      image.lowRrtypeMayExist qtype = true ∧
      ∃ node rrsetId, image.findNodeWithAsciiLowercaseHint qname hint = some node ∧
        image.ordinaryNameExists node = true ∧
        image.findRrsetAtNode node qtype qclass = some rrsetId ∧
        image.coveringDelegationBlocksDirectAnswer node qtype qclass = false ∧
        image.coveringDnameBlocksDirectAnswer node qclass = false ∧
        plan = (image.pushAnswerRrsetToPlan .positive rrsetId).markDirectAnswerCandidate := by
  unfold lookupDirectAnswerPlan at hdirect
  split at hdirect
  · cases hdirect
  rename_i hplain
  obtain ⟨hany, htargets, hlow⟩ := not_or.mp hplain |>.imp_right not_or.mp
  split at hdirect
  · cases hdirect
  rename_i node hnode
  split at hdirect
  · cases hdirect
  rename_i hexists
  split at hdirect
  · cases hdirect
  rename_i rrsetId hrrset
  split at hdirect
  · cases hdirect
  rename_i hclear
  obtain ⟨hcut, hdname⟩ := Bool.or_eq_false_iff.mp (Bool.not_eq_true _ ▸ hclear)
  exact ⟨hany, by simpa using htargets, by simpa using hlow, node, rrsetId, hnode,
    by simpa using hexists, hrrset, hcut, hdname, (some.inj hdirect).symm⟩

/-- The general lookup makes the direct plan, unless it follows a DNAME that is overlooked. -/
theorem lookupResponsePlan_of_direct_iff (hbuilt : image.WellBuilt) (hqname : qname.wireLen ≤ 255)
    (hhint : qname.LowercaseHint hint)
    (hdirect : image.lookupDirectAnswerPlan qname qtype qclass hint = some plan) (maxCnameChain : ℕ)
    (anyResponse : AnyResponseMode) :
    image.lookupResponsePlan qname qtype qclass maxCnameChain anyResponse hint = plan ↔
      ¬ image.ApexDnameOverlooked qname qclass := by
  obtain ⟨paths, hpaths⟩ := hbuilt.exists_paths
  obtain ⟨hany, htargets, hlow, node, rrsetId, hnode, hexists, hrrset, hcut, hdname, rfl⟩ :=
    lookupDirectAnswerPlan_some hdirect
  rw [lookupResponsePlan, queryNodeHandles_of_found hnode hexists]
  dsimp only
  rw [queryCut_none hpaths hbuilt hcut]
  constructor
  · intro hsame hoverlooked
    obtain ⟨dname, hfound⟩ :=
      isSome_iff_exists.mp (dnameForNode_isSome hpaths hhint hnode hoverlooked)
    rw [hfound] at hsame
    -- a plan that follows a DNAME is never offered for copying
    have hbuilding : ZoneImageLookupPlan.Building image qname
        (image.lookupDname qname qtype qclass maxCnameChain (some node) dname anyResponse) :=
      (building_rule qclass).lookupDname hbuilt hqname (some node)
        (hbuilt.queryDname_isRrset hfound)
    exact Bool.false_ne_true (hbuilding.not_direct.symm.trans
      (congrArg (·.directAnswerCandidate) hsame))
  · intro hapex
    rw [dnameForNode_none hpaths hnode hdname hapex]
    obtain ⟨rrset, -, hget, htype, -⟩ := findRrsetAtNode_spec hrrset
    have hanswer : image.exactAnswerPlan node qtype qclass anyResponse =
        some (image.pushAnswerRrsetToPlan .positive rrsetId).markDirectAnswerCandidate := by
      unfold exactAnswerPlan
      rw [if_neg hany, if_pos hlow, hrrset, map_some, addPrecomputedAdditionalsForSingleAnswerRrset,
        precomputedAdditionalRelations, hget]
      simp [htype, htargets]
    rw [hanswer]

/-- The RRset of the image a question asks for: the first of the name, type and class. -/
def answerRrset (image : ZoneImage) (qname : DomainName) (qtype qclass : UInt16) :
    Option ImageRrset :=
  image.rrsets.find? fun rrset => rrset.owner.lowerLabels = qname.lowerLabels ∧
    rrset.rrType = qtype ∧ qclassMatches rrset.cls qclass = true

theorem numbered_map_snd (image : ZoneImage) : image.numbered.map Prod.snd = image.rrsets := by
  have hall : ∀ rrsets : List ImageRrset,
      ((List.range rrsets.length).filterMap fun rrsetId => rrsets[rrsetId]?) = rrsets := by
    intro rrsets
    induction rrsets using List.reverseRecOn with
    | nil => rfl
    | append_singleton front rrset ih =>
      rw [length_append, length_singleton, range_succ, filterMap_append]
      conv_rhs => rw [← ih]
      congr 1
      · refine filterMap_congr fun rrsetId hrrsetId => ?_
        rw [List.getElem?_append_left (mem_range.mp hrrsetId)]
      · simp
  rw [numbered, map_filterMap]
  simpa [Function.comp_def] using hall image.rrsets

/-- The scan stops only behind the RRset it looks for. -/
theorem scanRrset_find {entries : List (ℕ × ImageRrset)}
    (h : scanRrset qtype qclass entries = some rrsetId) :
    ∃ rrset, entries.find? (fun entry => entry.2.rrType = qtype ∧
      qclassMatches entry.2.cls qclass = true) = some (rrsetId, rrset) := by
  induction entries with
  | nil => cases h
  | cons entry rest ih =>
    obtain ⟨id, rrset⟩ := entry
    rw [scanRrset] at h
    split at h
    next hbelow =>
      rw [find?_cons_of_neg]
      · exact ih h
      · simp [qclassMatches, hbelow.1, UInt16.ne_of_lt hbelow.2]
    split at h
    · cases h
    split at h
    next hfound =>
      obtain rfl := some.inj h
      exact ⟨rrset, find?_cons_of_pos (by simpa using hfound)⟩
    next hother =>
      rw [find?_cons_of_neg (by simpa using hother)]
      exact ih h

theorem ownerPath_congr {origin left right : DomainName}
    (h : left.lowerLabels = right.lowerLabels) :
    ownerPath origin left = ownerPath origin right := by
  have hpath : ∀ name : DomainName, ownerPath origin name =
      (name.lowerLabels.take (name.lowerLabels.length - origin.labels.length)).reverse := by
    intro name
    rw [ownerPath, map_take, DomainName.length_lowerLabels]
    rfl
  rw [hpath, hpath, h]

theorem find?_congr {α : Type} {p q : α → Bool} {items : List α}
    (h : ∀ item ∈ items, p item = q item) : items.find? p = items.find? q := by
  rw [← head?_filter, ← head?_filter, filter_congr h]

theorem answerRrset_of_found (hbuilt : image.WellBuilt) (hhint : qname.LowercaseHint hint)
    (hnode : image.findNodeWithAsciiLowercaseHint qname hint = some node)
    (h : image.findRrsetAtNode node qtype qclass = some rrsetId)
    (hget : image.rrsets[rrsetId]? = some rrset) :
    image.answerRrset qname qtype qclass = some rrset := by
  obtain ⟨paths, hpaths⟩ := hbuilt.exists_paths
  have hzone := findNode_inZone hnode
  have hpath := (hpaths.findNode_iff hhint hzone node).mp hnode
  obtain ⟨found, hfound⟩ := scanRrset_find h
  rw [hpaths.at_node node _ hpath, find?_filter] at hfound
  obtain rfl : found = rrset :=
    some.inj ((mem_numbered.mp (mem_of_find?_eq_some hfound)).symm.trans hget)
  rw [answerRrset, ← numbered_map_snd, find?_map]
  rw [find?_congr fun entry hentry => ?_, hfound]
  · rfl
  have hin := hbuilt.in_zone entry.2 (mem_of_getElem? (mem_numbered.mp hentry))
  have hown : ownerPath image.origin entry.2.owner = ownerPath image.origin qname ↔
      entry.2.owner.lowerLabels = qname.lowerLabels :=
    ⟨ownerPath_inj hin hzone, ownerPath_congr⟩
  simp [hown]

end ZoneImage

section Response

variable {image : ZoneImage} {plan : ZoneImageLookupPlan} {question : Question}
  {metadata : RequestMetadata} {options : AnswerOptions} {udpCeiling : ℕ} {bytes : List UInt8}

def answerFlags (header : Header) : UInt16 :=
  header.responseFlagsFromPlanBits (Rcode.noError.responseFlagBits true) false

/-- The general response to a plan that can be copied. -/
theorem buildZoneImageResponseFromPlanRecords_direct (hquest : question.Parsed)
    (hbuilt : image.WellBuilt) (hsound : plan.Sound image question.qname)
    (hshape : plan.DirectShape image question.qname)
    (hans : plan.answerRrsets = [rrsetId]) (hget : image.rrsets[rrsetId]? = some rrset)
    (htype : directCopyRdataType rrset.rrType = true) (hcount : rrset.records.length ≤ u16Max)
    (header : Header) (metadata : RequestMetadata) (options : AnswerOptions) (udpCeiling : ℕ) :
    ∃ shape general, plan.responseShape = some shape ∧
      buildZoneImageResponseFromPlanRecords header question image plan shape metadata options false
        (zoneImageResponseSizing udpCeiling metadata options) = some general ∧
      MessageReads general header.id (answerFlags header) question metadata
        (image.visitPlanAnswerRecords plan) [] [] := by
  obtain ⟨hauths, hadds⟩ := hshape.sections
  have hlen : (image.visitPlanAnswerRecords plan).length ≤ u16Max := by
    rw [visitPlanAnswerRecords_direct hshape.items_nil hans hget, length_map]
    exact hcount
  have hfit : plan.SectionsFit image :=
    ⟨hlen, by rw [hauths]; exact zero_le _, by rw [hadds]; exact zero_le _⟩
  obtain ⟨shape, hresponse⟩ := isSome_iff_exists.mp (hsound.responseShape_isSome.mpr hfit)
  obtain ⟨-, rfl⟩ := hsound.responseShape_eq hresponse
  have hopt : metadata.optCount ≤ u16Max := by
    unfold RequestMetadata.optCount
    split <;> decide
  have hrecs : ∀ record ∈ image.visitPlanAnswerRecords plan ++ [] ++ [], record.WellFormed := by
    rw [append_nil, append_nil, visitPlanAnswerRecords_direct hshape.items_nil hans hget,
      List.forall_mem_map]
    intro stored hstored
    obtain ⟨hrdata, hencoding⟩ := hbuilt.fits rrset (mem_of_getElem? hget) stored hstored
    refine ⟨⟨rrset.owner, ?_, rfl⟩, ?_, ?_⟩
    · rw [DomainName.wireLen_congr (hshape.owner_eq hans hget)]
      exact hquest.qname_fits
    · exact UInt16.toNat_ofNat_of_lt' (by simp only [UInt16.size]; omega)
    · show RdataFits stored.rdataEncoding stored.rdata
      rw [RdataFits, hencoding, if_pos (encoding_isCopy_of_direct htype _)]
      trivial
  have hreads :=
    zoneImageResponseBytes_reads header hquest
      (Rcode.noError.responseFlagBits true) false hrecs
    metadata options udpCeiling ⟨hlen, zero_le _, by rw [length_nil, zero_add]; exact hopt⟩
  refine ⟨_, _, hresponse, ?_, hreads⟩
  rw [buildZoneImageResponseFromPlanRecords, zoneImageResponseSizing,
    zoneImageEdnsSizing_additionalCount, hauths,
    hadds, length_nil, sectionCounts_withOpt _ _ _ (zero_le _),
    if_pos (by rw [zero_add]; exact hopt), map_some,
    hshape.rcode_eq, hshape.authoritative, visitPlanRecords, hauths, hadds]
  rfl

/-- The two messages read back as the same records under the same flags and counts. -/
def SameReading (header : Header) (question : Question) (metadata : RequestMetadata)
    (left right : List UInt8) : Prop :=
  ∃ flags answers authorities additionals,
    MessageReads left header.id flags question metadata answers authorities additionals ∧
      MessageReads right header.id flags question metadata answers authorities additionals

/-- The general response to the plan reads back as the bytes do. -/
def ReadsAsGeneral (header : Header) (question : Question) (image : ZoneImage)
    (plan : ZoneImageLookupPlan) (metadata : RequestMetadata) (options : AnswerOptions)
    (udpCeiling : ℕ) (bytes : List UInt8) : Prop :=
  ∃ shape general, plan.responseShape = some shape ∧
    buildZoneImageResponseFromPlanRecords header question image plan shape metadata options false
      (zoneImageResponseSizing udpCeiling metadata options) = some general ∧
    SameReading header question metadata bytes general

theorem readsAsGeneral_iff (hquest : question.Parsed) (hbuilt : image.WellBuilt)
    (hsound : plan.Sound image question.qname) (hshape : plan.DirectShape image question.qname)
    (hans : plan.answerRrsets = [rrsetId]) (hget : image.rrsets[rrsetId]? = some rrset)
    (hcopy : DirectCopy question rrset metadata options udpCeiling) (header : Header) :
    ReadsAsGeneral header question image plan metadata options udpCeiling
      (directCopyBytes header question rrset metadata options udpCeiling) ↔ ¬ rrset.OwnTtls := by
  have hcopied := directCopyBytes_reads header hquest hbuilt (mem_of_getElem? hget)
    (hshape.owner_eq hans hget) hcopy.rdata hcopy.count metadata options udpCeiling
  obtain ⟨shape, general, hresponse, hgeneral, hplanned⟩ :=
    buildZoneImageResponseFromPlanRecords_direct hquest hbuilt hsound hshape hans hget
      hcopy.rdata hcopy.count header metadata options udpCeiling
  constructor
  · rintro ⟨other, planned, hother, hbytes, flags, answers, authorities, additionals, hleft, hright⟩
    obtain rfl := some.inj (hresponse.symm.trans hother)
    obtain rfl := some.inj (hgeneral.symm.trans hbytes)
    rw [← directRecords_fields_iff hshape.items_nil hans hget, hcopied.unique hleft,
      hplanned.unique hright]
  · intro hown
    rw [directRecords_eq hshape.items_nil hans hget hown] at hcopied
    exact ⟨shape, general, hresponse, hgeneral, _, _, _, _, hcopied, hplanned⟩

/-- For a question that has a direct plan, of one answer RRset and nothing else: the general lookup
makes the same plan exactly when no DNAME at the apex is overlooked, and the copy reads back as
the records, flags and counts of the general response exactly when no RRset with a TTL of a
record's own is copied. A datagram is not longer than its ceiling. -/
theorem directAnswer_agrees {packet : List UInt8} (hquestion : Question.parse packet = .ok question)
    {origin : DomainName} {serial : Option UInt32} {rrsets : List Rrset}
    (himage : compileRrsets origin serial rrsets = .ok image) {hint : Bool}
    (hhint : question.qname.LowercaseHint hint)
    (hdirect : image.lookupDirectAnswerPlan question.qname question.qtype question.qclass hint =
      some plan)
    (header : Header) (metadata : RequestMetadata) (options : AnswerOptions)
    (udpCeiling maxCnameChain : ℕ) (anyResponse : AnyResponseMode) :
    plan.DirectShape image question.qname ∧
      (image.lookupResponsePlan question.qname question.qtype question.qclass maxCnameChain
        anyResponse hint =
          plan ↔ ¬ image.ApexDnameOverlooked question.qname question.qclass) ∧
      ((∀ bytes, buildDirectZoneImageAnswerResponse header question image plan metadata options
            (zoneImageResponseSizing udpCeiling metadata options) = some bytes →
          ReadsAsGeneral header question image plan metadata options udpCeiling bytes) ↔
        ¬ ∃ rrset, image.answerRrset question.qname question.qtype question.qclass = some rrset ∧
          DirectCopy question rrset metadata options udpCeiling ∧ rrset.OwnTtls) ∧
      ∀ bytes, buildDirectZoneImageAnswerResponse header question image plan metadata options
          (zoneImageResponseSizing udpCeiling metadata options) = some bytes →
        options.transport = .udp → bytes.length ≤ udpCeiling := by
  have hparsed := Question.parse_parsed hquestion
  have hbuilt := compileRrsets_wellBuilt himage
  have hsound := lookupDirectAnswerPlan_sound hbuilt hhint hdirect
  obtain ⟨-, -, -, node, rrsetId, hnode, -, hrrset, -, -, hplan⟩ :=
    lookupDirectAnswerPlan_some hdirect
  have hcandidate : plan.directAnswerCandidate = true := by rw [hplan]; rfl
  have hanswers : plan.answerRrsets = [rrsetId] := by rw [hplan]; rfl
  have hshape := hsound.direct hcandidate
  obtain ⟨rrset, -, hget, -⟩ := findRrsetAtNode_spec hrrset
  have hasked := answerRrset_of_found hbuilt hhint hnode hrrset hget
  have hcopied : ∀ {bytes},
      buildDirectZoneImageAnswerResponse header question image plan metadata options
      (zoneImageResponseSizing udpCeiling metadata options) = some bytes ↔
        DirectCopy question rrset metadata options udpCeiling ∧
        bytes = directCopyBytes header question rrset metadata options udpCeiling := by
    intro bytes
    rw [buildDirectZoneImageAnswerResponse_eq_some_iff hparsed]
    simp [hcandidate, hanswers, hget]
  refine ⟨hshape, lookupResponsePlan_of_direct_iff hbuilt hparsed.qname_fits hhint
    hdirect maxCnameChain anyResponse, ?_, ?_⟩
  · simp only [hasked, some.injEq, exists_eq_left', not_and]
    refine ⟨fun h hcopy => ?_, fun h bytes hbytes => ?_⟩
    · rw [← readsAsGeneral_iff hparsed hbuilt hsound hshape hanswers hget hcopy header]
      exact h _ (hcopied.mpr ⟨hcopy, rfl⟩)
    · obtain ⟨hcopy, rfl⟩ := hcopied.mp hbytes
      exact (readsAsGeneral_iff hparsed hbuilt hsound hshape hanswers hget hcopy header).mpr
        (h hcopy)
  · intro bytes hbytes hudp
    obtain ⟨hcopy, rfl⟩ := hcopied.mp hbytes
    rw [length_directCopyBytes hparsed hudp]
    exact hcopy.fits hudp

end Response

private def pathApex : DomainName := ⟨[[107]], by decide⟩

private def pathQuery (qtype : UInt8) :
    List UInt8 := [0, 7, 0, 0, 0, 1, 0, 0, 0, 0, 0, 0, 1, 107, 0, 0, qtype, 0, 1]

private def pathQuestion (qtype : UInt8) :
    Question := ⟨pathApex, fromBe16 0 qtype, 1, 3, [0, qtype, 0, 1], true⟩

private def pathRequest : RequestMetadata := ⟨none, 0, none⟩

private def pathOptions : AnswerOptions := ⟨.udp, 1232, 0, 0, .off, [], none⟩

private def pathAddresses : List Rrset :=
  [⟨pathApex, a, classIn, 300, [[192, 0, 2, 1], [192, 0, 2, 2]]⟩]

private theorem pathQuery_parse (qtype : UInt8) (h : qtype = 1 ∨ qtype = 46) :
    Question.parse (pathQuery qtype) = .ok (pathQuestion qtype) := by
  rcases h with rfl | rfl <;> decide +kernel

/-- Two addresses at the apex, copied from the body that was laid out for them. -/
theorem directAnswer_agrees_apexAddress :
    ∃ image plan bytes, compileRrsets pathApex none pathAddresses = .ok image ∧
      image.lookupDirectAnswerPlan pathApex 1 1 true = some plan ∧
      image.lookupResponsePlan pathApex 1 1 8 .minimal true = plan ∧
      buildDirectZoneImageAnswerResponse ⟨7, 0⟩ (pathQuestion 1) image plan pathRequest pathOptions
        (zoneImageResponseSizing 512 pathRequest pathOptions) = some bytes ∧
      ReadsAsGeneral ⟨7, 0⟩ (pathQuestion 1) image plan pathRequest pathOptions 512 bytes := by
  have hcompile : ∃ image plan rrset, compileRrsets pathApex none pathAddresses = .ok image ∧
      image.lookupDirectAnswerPlan pathApex 1 1 true = some plan ∧
      image.answerRrset pathApex 1 1 = some rrset ∧ ¬ rrset.OwnTtls ∧
      (buildDirectZoneImageAnswerResponse ⟨7, 0⟩ (pathQuestion 1) image plan pathRequest pathOptions
        (zoneImageResponseSizing 512 pathRequest pathOptions)).isSome = true := by
    refine ⟨_, _, _, rfl, rfl, rfl, ?_, by decide⟩
    rintro ⟨record, hrecord, hdiffers⟩
    exact hdiffers (by revert record; decide)
  obtain ⟨image, plan, rrset, himage, hdirect, hasked, hown, hsome⟩ := hcompile
  obtain ⟨bytes, hbytes⟩ := isSome_iff_exists.mp hsome
  obtain ⟨-, hplan, hresponse, -⟩ := directAnswer_agrees (pathQuery_parse 1 (.inl rfl)) himage
    (fun _ => by decide) hdirect ⟨7, 0⟩ pathRequest pathOptions 512 8 .minimal
  refine ⟨image, plan, bytes, himage, hdirect, hplan.mpr fun h => h.1 (.inl rfl), hbytes, ?_⟩
  refine hresponse.mpr ?_ bytes hbytes
  rintro ⟨other, hother, -, hdiffers⟩
  obtain rfl := some.inj (hasked.symm.trans hother)
  exact hown hdiffers

private def belowApex : DomainName := ⟨[[97], [107]], by decide⟩

/-- A zone of class CH with a DNAME at its apex and a TXT RRset below it. -/
private def hiddenRrsets : List Rrset :=
  [⟨pathApex, dname, 3, 300, [[1, 120, 0]]⟩, ⟨belowApex, txt, 3, 300, [[1, 116]]⟩]

/-- An RRSIG RRset with another TTL than the RRset it covers. -/
private def shortSignature : List Rrset :=
  [⟨pathApex, RecordType.a, classIn, 512, [[192, 0, 2, 1]]⟩, ⟨pathApex, rrsig, classIn, 256,
      [[0, 1, 8, 1, 0, 0, 2, 0, 0, 0, 0, 2, 0, 0, 0, 1, 0, 9, 1, 107, 0, 1]]⟩]

/-- The copy of the signature does not read as the general response does, which sends it with the
TTL of the RRset it covers; and the direct plan for the TXT RRset answers with it, where the
general lookup follows the DNAME. -/
theorem directAnswer_differs :
    (∃ image plan bytes, compileRrsets pathApex none shortSignature = .ok image ∧
      image.lookupDirectAnswerPlan pathApex rrsig classIn true = some plan ∧
      buildDirectZoneImageAnswerResponse ⟨7, 0⟩ (pathQuestion 46) image plan pathRequest pathOptions
        (zoneImageResponseSizing 512 pathRequest pathOptions) = some bytes ∧
      ¬ ReadsAsGeneral ⟨7, 0⟩ (pathQuestion 46) image plan pathRequest pathOptions 512 bytes) ∧
    ∃ image plan, compileRrsets pathApex none hiddenRrsets = .ok image ∧
      image.lookupDirectAnswerPlan belowApex txt 3 true = some plan ∧
      (image.visitPlanAnswerRecords plan).map (fun record => record.fixedFields.rrType) = [txt] ∧
      (image.visitPlanAnswerRecords (image.lookupResponsePlan belowApex txt 3 8 .minimal true)).map
        (fun record => record.fixedFields.rrType) = [dname, cname] := by
  refine ⟨?_, _, _, rfl, rfl, by decide, by decide⟩
  have hcompile : ∃ image plan rrset, compileRrsets pathApex none shortSignature = .ok image ∧
      image.lookupDirectAnswerPlan pathApex rrsig classIn true = some plan ∧
      plan.directAnswerCandidate = true ∧ plan.answerRrsets = [1] ∧ image.rrsets[1]? = some rrset ∧
      DirectCopy (pathQuestion 46) rrset pathRequest pathOptions 512 ∧ rrset.OwnTtls :=
    ⟨_, _, _, rfl, rfl, rfl, rfl, rfl, ⟨by decide, by decide, fun _ => by decide⟩,
      _, mem_cons_self, by decide⟩
  obtain ⟨image, plan, rrset, himage, hdirect, hcandidate, hanswers, hget, hcopy, hown⟩ := hcompile
  have hparsed := Question.parse_parsed (pathQuery_parse 46 (.inr rfl))
  have hbuilt := compileRrsets_wellBuilt himage
  have hsound : plan.Sound image (pathQuestion 46).qname :=
    lookupDirectAnswerPlan_sound hbuilt (fun _ => by decide) hdirect
  refine ⟨image, plan, _, himage, hdirect,
    (buildDirectZoneImageAnswerResponse_eq_some_iff hparsed).mpr
    ⟨hcandidate, 1, rrset, hanswers, hget, hcopy, rfl⟩, fun hreads => ?_⟩
  exact (readsAsGeneral_iff hparsed hbuilt hsound (hsound.direct hcandidate) hanswers hget hcopy
    ⟨7, 0⟩).mp hreads hown

end BoronDns
