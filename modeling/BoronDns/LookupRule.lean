import BoronDns.ImageLookup
import BoronDns.ImageShape

/-!
A rule for the lookups of a compiled zone. A lookup builds its plan from a few operations on
RRsets of the image, so a property of plans that each operation keeps holds of whatever a
lookup returns. The chain of aliases is followed by induction on the steps it has left.
-/

namespace BoronDns

open ZoneImageLookupPlan List Option

variable {node closestNode rrset wildcardNode : ℕ} {hint : Bool} {closest : Option ℕ}
  {result : ZoneImageLookupPlan}

namespace ZoneImage

variable {image : ZoneImage} {qname : DomainName}

section Names

theorem singleNameRrsetTarget_wireLen {rrsetId : ℕ} {target : ImageSingleNameTarget}
    (h : image.singleNameRrsetTarget rrsetId = some target) : target.name.wireLen ≤ 255 := by
  unfold singleNameRrsetTarget at h
  split at h
  · simp at h
  split at h
  · split at h
    · simp at h
    next name hname =>
      obtain rfl := some.inj h
      obtain ⟨record, -, hread⟩ := bind_eq_some_iff.mp hname
      exact (DomainName.fromUncompressedWire_iff.mp hread).2
  · simp at h

theorem withReplacedSuffix_wireLen {name suffix replacement result : DomainName}
    (h : name.withReplacedSuffix suffix replacement = some result) : result.wireLen ≤ 255 := by
  unfold DomainName.withReplacedSuffix at h
  split at h
  · dsimp only at h
    split at h
    · simp at h
    · obtain rfl := some.inj h
      omega
  · simp at h

variable {labels : List Label}

theorem queryNodeLoop_hint (hhint : qname.LowercaseHint hint)
    (hlabels : ∀ label ∈ labels, label ∈ qname.labels) (node : ℕ) (closest : Option ℕ) :
    image.queryNodeLoop hint labels node closest =
      image.queryNodeLoop false labels node closest := by
  induction labels generalizing node closest with
  | nil => rfl
  | cons label rest ih =>
    have hchild : image.findChildWithAsciiLowercaseHint node label hint =
        image.findChildWithAsciiLowercaseHint node label false := by
      rw [findChild_eq, findChild_eq, hinted_label hhint (hlabels label mem_cons_self)]
      rfl
    rw [queryNodeLoop, queryNodeLoop, hchild]
    cases image.findChildWithAsciiLowercaseHint node label false with
    | none => rfl
    | some child => exact ih (fun other hother => hlabels other (mem_cons_of_mem _ hother)) child _

/-- A valid hint about the letters of a name does not change what is found. -/
theorem queryNodeHandles_hint (hhint : qname.LowercaseHint hint) :
    image.queryNodeHandles qname hint = image.queryNodeHandles qname false := by
  unfold queryNodeHandles relativeLabelSlice
  by_cases hzone : qname.isEqualOrSubdomainOf image.origin = true
  · rw [if_pos hzone]
    refine queryNodeLoop_hint hhint ?_ _ _
    intro label hlabel
    exact mem_of_mem_take (mem_reverse.mp hlabel)
  · rw [if_neg hzone]

/-- The node of a name that exists is also the closest one. -/
theorem queryNodeLoop_of_found {start : ℕ}
    (hwalk : labels.foldlM (fun node label => image.findChildWithAsciiLowercaseHint node label hint)
      start = some node)
    (hexists : image.ordinaryNameExists node = true)
    (hclosest : labels = [] → closest = some start) :
    image.queryNodeLoop hint labels start closest = (some node, some node) := by
  induction labels generalizing start closest with
  | nil =>
    obtain rfl : start = node := some.inj hwalk
    rw [queryNodeLoop, if_pos hexists, hclosest rfl]
  | cons label rest ih =>
    rw [foldlM_cons] at hwalk
    obtain ⟨child, hchild, hrest⟩ := bind_eq_some_iff.mp hwalk
    rw [queryNodeLoop, hchild]
    refine ih hrest fun hnil => ?_
    subst hnil
    obtain rfl : child = node := some.inj hrest
    exact if_pos hexists

theorem queryNodeHandles_of_found
    (hnode : image.findNodeWithAsciiLowercaseHint qname hint = some node)
    (hexists : image.ordinaryNameExists node = true) :
    image.queryNodeHandles qname hint = (some node, some node) := by
  unfold findNodeWithAsciiLowercaseHint at hnode
  unfold queryNodeHandles
  split at hnode
  · cases hnode
  · refine queryNodeLoop_of_found hnode hexists fun hnil => ?_
    rw [hnil] at hnode
    obtain rfl : 0 = node := some.inj hnode
    exact if_pos hexists

end Names

section Found

variable {qtype qclass : UInt16}

theorem exists_of_guarded {guard : Prop} [Decidable guard] {rrType : UInt16}
    (h : (if guard then image.findRrsetAtNode node rrType qclass else none) = some rrset) :
    image.findRrsetAtNode node rrType qclass = some rrset := by
  split at h
  · exact h
  · simp at h

theorem WellBuilt.cut_isRrset (hbuilt : image.WellBuilt) {exact dname : Option ℕ} {delegation : ℕ}
    (h : image.queryCut exact closest qtype qclass dname = some delegation) :
    image.IsRrset delegation := by
  obtain ⟨node, -, h⟩ := bind_eq_some_iff.mp h
  obtain ⟨found, hfound, h⟩ := bind_eq_some_iff.mp h
  split at h
  · obtain rfl := some.inj h
    unfold delegationForNode at hfound
    split at hfound
    · obtain ⟨entry, hentry, hnearest⟩ := bind_eq_some_iff.mp hfound
      obtain ⟨rrset, hget, -⟩ := (hbuilt.coversValid (mem_of_getElem? hentry)).1 _ hnearest
      exact isRrset_of_getElem? hget
    · exact delegationWalk_isRrset (by simp) hfound
  · simp at h

theorem WellBuilt.queryDname_isRrset (hbuilt : image.WellBuilt) {exact : Option ℕ} {dname : ℕ}
    (h : image.queryDname exact closest qclass = some dname) : image.IsRrset dname := by
  unfold queryDname at h
  split at h
  · obtain ⟨node, -, h⟩ := bind_eq_some_iff.mp h
    exact hbuilt.dname_isRrset h
  · simp at h

/-- Two plans with the same RRsets answered under their own names. -/
def SameAnswers (left right : ZoneImageLookupPlan) : Prop :=
  left.answerRrsets = right.answerRrsets ∧ left.answerHasRecords = right.answerHasRecords

theorem rrsetTargets_sameAnswers (rrsetId : ℕ) (state : List ℕ × ZoneImageLookupPlan) :
    SameAnswers (image.pushAdditionalsForRrsetTargets rrsetId state).2 state.2 := by
  refine List.foldlRecOn (motive := fun next : List ℕ × ZoneImageLookupPlan =>
    SameAnswers next.2 state.2) _ _ ⟨rfl, rfl⟩ ?_
  intro next hnext relation _
  split
  · exact hnext
  · exact hnext

theorem ownerTargets_sameAnswers (rrsetId ownerIndex : ℕ)
    (state : List (ℕ × Bool) × ZoneImageLookupPlan) :
    SameAnswers
      (image.pushAdditionalsForRrsetTargetsWithEffectiveOwner rrsetId ownerIndex
        state).2 state.2 := by
  refine List.foldlRecOn (motive := fun next : List (ℕ × Bool) × ZoneImageLookupPlan =>
    SameAnswers next.2 state.2) _ _ ⟨rfl, rfl⟩ ?_
  intro next hnext relation _
  split
  · exact hnext
  split
  · exact hnext
  · exact hnext

theorem anyRrsets_ne_nil_of_cname {cname : ℕ}
    (h : image.findRrsetAtNode node RecordType.cname qclass = some cname) :
    image.anyRrsetsAtNode node qclass ≠ [] :=
  scanAnyRrsets_ne_nil (by decide) h

theorem fullAny_hasRecords (h : image.anyRrsetsAtNode node qclass ≠ []) :
    (image.pushFullAnyRrsetsAtNode node qclass positive).answerHasRecords = true := by
  unfold pushFullAnyRrsetsAtNode
  obtain ⟨first, rest, hlist⟩ := exists_cons_of_ne_nil h
  rw [hlist, foldl_cons]
  refine List.foldlRecOn (motive := fun state : List ℕ × ZoneImageLookupPlan =>
    state.2.answerHasRecords = true) _ _ ?_ ?_
  · exact (rrsetTargets_sameAnswers first _).2.trans (by simp [pushAnswerRrsetToPlan,
      pushAnswerRrset, positive])
  · intro state hstate rrset _
    refine (rrsetTargets_sameAnswers rrset _).2.trans ?_
    simp only [pushAnswerRrsetToPlan, pushAnswerRrset]
    split
    · exact hstate
    · rfl

theorem fullAnyWithOwner_hasRecords (owner : DomainName)
    (h : image.anyRrsetsAtNode node qclass ≠ []) :
    (image.pushFullAnyRrsetsWithOwnerAtNode node qclass owner positive).answerHasRecords =
      true := by
  unfold pushFullAnyRrsetsWithOwnerAtNode
  obtain ⟨first, rest, hlist⟩ := exists_cons_of_ne_nil h
  simp only [hlist, isEmpty_cons, Bool.false_eq_true, if_false, foldl_cons]
  refine List.foldlRecOn (motive := fun state : List (ℕ × Bool) × ZoneImageLookupPlan =>
    state.2.answerHasRecords = true) _ _ ?_ ?_
  · exact (ownerTargets_sameAnswers first _ _).2
  · intro state _ rrset _
    exact (ownerTargets_sameAnswers rrset _ _).2

/-- A question for every type never gets as far as an alias: the alias itself
answers it. -/
theorem exactAnswerPlan_any {anyResponse : AnyResponseMode}
    (h : image.exactAnswerPlan node RecordType.any qclass anyResponse = none) :
    image.findRrsetAtNode node RecordType.cname qclass = none := by
  by_contra hne
  obtain ⟨cname, hcname⟩ := ne_none_iff_exists'.mp hne
  have hany := anyRrsets_ne_nil_of_cname hcname
  unfold exactAnswerPlan at h
  rw [if_pos rfl] at h
  cases anyResponse with
  | minimal =>
    simp only [minimalAnyRrsetAtNode, map_eq_none_iff, List.head?_eq_none_iff] at h
    exact hany h
  | full =>
    simp only [fullAny_hasRecords hany, if_true] at h
    simp at h

end Found

/-- An RRset of the wildcard that stands for a name: the name does not exist, and the wildcard
is the child of the closest name above it that does. -/
structure Expansion (image : ZoneImage) (qclass : UInt16) (rrsetId : ℕ) (owner : DomainName) :
    Prop where
  fits : owner.wireLen ≤ 255
  absent : (image.queryNodeHandles owner false).1 = none
  source : ∃ closest wildcardNode rrset, (image.queryNodeHandles owner false).2 = some closest ∧
    image.findChild closest [42] = some wildcardNode ∧
      (rrsetId, rrset) ∈ image.rrsetsAtNode wildcardNode ∧ qclassMatches rrset.cls qclass = true

theorem Expansion.isRrset {qclass : UInt16} {rrsetId : ℕ} {owner : DomainName}
    (h : image.Expansion qclass rrsetId owner) : image.IsRrset rrsetId := by
  obtain ⟨_, _, rrset, -, -, hmem, -⟩ := h.source
  exact isRrset_of_getElem? (mem_rrsetsAtNode hmem)

/-- A property of plans that every operation of a lookup keeps. -/
structure LookupRule (image : ZoneImage) (qclass : UInt16) (P : ZoneImageLookupPlan → Prop) :
    Prop where
  start : P positive
  rcode : ∀ {plan}, P plan → ∀ rcode, P { plan with rcode }
  servfail : ∀ {plan}, P plan → ∀ termination, P (plan.setServfail termination)
  continuation : ∀ {plan}, P plan → ∀ target remaining,
    P (plan.withIndirectionContinuation target remaining)
  denial : ∀ {plan}, P plan → ∀ terminalName kind, P (plan.withDenialContext terminalName kind)
  authority : ∀ {plan rrset}, P plan → image.IsRrset rrset →
    P (image.pushAuthorityRrsetToPlan plan rrset)
  cut : ∀ {plan delegation}, P plan → image.IsRrset delegation →
    P (image.addGlueForNsRrset delegation (image.pushAuthorityRrsetToPlan
      { plan with referralNsRrset := some delegation } delegation))
  answer : ∀ {plan rrset}, P plan → image.IsRrset rrset → P (image.pushAnswerRrsetToPlan plan rrset)
  additionals : ∀ {plan rrset}, P plan → image.IsRrset rrset →
    P (image.addPrecomputedAdditionalsForSingleAnswerRrset rrset
    (image.pushAnswerRrsetToPlan plan rrset)).1
  synthesized : ∀ {plan dname} {current target : DomainName}, P plan → image.IsRrset dname →
    current.wireLen ≤ 255 → target.wireLen ≤ 255 →
      P ((image.pushAnswerRrsetToPlan plan dname).pushSynthesizedAnswer current
        (image.synthesizedCnameFixedFields dname) .singleName target.toWire)
  expanded : ∀ {plan rrset owner}, P plan → image.Expansion qclass rrset owner →
    P (image.pushAnswerRrsetWithOwnerToPlan plan rrset owner).1
  expandedAdditionals : ∀ {plan rrset owner}, P plan → image.Expansion qclass rrset owner →
    P (image.addPrecomputedAdditionalsForWildcardAnswerRrset rrset
      (image.pushAnswerRrsetWithOwnerToPlan plan rrset owner).2
      (image.pushAnswerRrsetWithOwnerToPlan plan rrset owner).1)
  expandedAny : ∀ {node} {owner : DomainName}, owner.wireLen ≤ 255 →
    (∀ rrset ∈ image.anyRrsetsAtNode node qclass, image.Expansion qclass rrset owner) →
      P (image.pushFullAnyRrsetsWithOwnerAtNode node qclass owner positive)

/-- A continuation that keeps a property of plans, for every target that is a name. -/
def ResumeKeeps (P : ZoneImageLookupPlan → Prop) (resume : Option Resume) : Prop :=
  ∀ step, resume = some step → ∀ target hint plan state, target.wireLen ≤ 255 → P plan →
    P (step target hint plan state)

theorem resumeKeeps_none {P : ZoneImageLookupPlan → Prop} : ResumeKeeps P none := by
  intro step hstep
  simp at hstep

namespace LookupRule

variable {qtype qclass : UInt16} {P : ZoneImageLookupPlan → Prop} {plan : ZoneImageLookupPlan}
  {resume : Option Resume}

theorem soa (hrule : image.LookupRule qclass P) (h : P plan) :
    P (image.pushSoaToPlan plan qclass) := by
  unfold pushSoaToPlan
  split
  · exact h
  next soa hsoa => exact hrule.authority h (soaRrset_isRrset hsoa)

theorem nodata (hrule : image.LookupRule qclass P) (terminalName : DomainName) :
    P (image.nodataPlan terminalName qclass) :=
  hrule.denial (hrule.soa hrule.start) _ _

theorem nxdomain (hrule : image.LookupRule qclass P) (terminalName : DomainName) :
    P (image.nxdomainPlan terminalName qclass) :=
  hrule.denial (hrule.soa (hrule.rcode hrule.start .nxDomain)) _ _

theorem followDname (hrule : image.LookupRule qclass P) {current : DomainName}
    {malformed unrepresentable plan : ZoneImageLookupPlan} {dname : ℕ}
    {resume : DomainName → ImageTargetNode → ZoneImageLookupPlan → ZoneImageLookupPlan}
    (hmalformed : P malformed) (hunrepresentable : P unrepresentable) (hplan : P plan)
    (hdname : image.IsRrset dname) (hcur : current.wireLen ≤ 255)
    (hresume : qtype ≠ RecordType.any → ∀ target hint plan, target.wireLen ≤ 255 → P plan →
      P (resume target hint plan)) :
    P (image.followDname current qtype qclass malformed unrepresentable plan dname resume) := by
  unfold ZoneImage.followDname
  split
  · exact hrule.answer hmalformed hdname
  split
  · exact hrule.answer hmalformed hdname
  dsimp only
  split
  · exact hrule.soa (hrule.answer hunrepresentable hdname)
  rename_i synthesizedTarget hsynthesized
  have htarget := withReplacedSuffix_wireLen hsynthesized
  have hpushed := hrule.synthesized hplan hdname hcur htarget
  split
  · exact hpushed
  next htype => exact hresume (fun hany => htype (Or.inr hany)) _ _ _ htarget hpushed

theorem resolveCname (hrule : image.LookupRule qclass P) (hresume : ResumeKeeps P resume)
    (h : P plan) {cname : ℕ} (hcname : image.IsRrset cname) (state : ChainState) :
    P (image.resolveCnameAt resume plan state cname) := by
  unfold resolveCnameAt
  split
  · exact hrule.servfail h _
  next step =>
    split
    · exact hrule.answer h hcname
    next target htarget =>
      exact hresume step rfl _ _ _ state (singleNameRrsetTarget_wireLen htarget)
        (hrule.answer h hcname)

theorem expansion_of_found {owner : DomainName} (hown : owner.wireLen ≤ 255) {rrType : UInt16}
    (hhandles : image.queryNodeHandles owner false = (none, some closestNode))
    (hchild : image.findChild closestNode [42] = some wildcardNode)
    (hfound : image.findRrsetAtNode wildcardNode rrType qclass = some rrset) :
    image.Expansion qclass rrset owner := by
  obtain ⟨found, hmem, -, -, hclass⟩ := findRrsetAtNode_spec hfound
  exact ⟨hown, congrArg Prod.fst hhandles,
    closestNode, wildcardNode, found, congrArg Prod.snd hhandles, hchild, hmem, hclass⟩

variable {target : DomainName}

theorem resolveWildcard (hrule : image.LookupRule qclass P) (hqtype : qtype ≠ RecordType.any)
    (hresume : ResumeKeeps P resume) (h : P plan) (htarget : target.wireLen ≤ 255)
    (hhandles : image.queryNodeHandles target false = (none, some closestNode)) {state : ChainState}
    (hresult : image.resolveWildcardContinuationAt qtype qclass resume closestNode target plan
      state = some result) :
    P result := by
  unfold resolveWildcardContinuationAt at hresult
  split at hresult
  · simp at hresult
  rename_i wildcardNode hchild
  simp only [hqtype, if_false, Bool.false_eq_true] at hresult
  split at hresult
  next rrset hexact =>
    obtain rfl := some.inj hresult
    exact hrule.expandedAdditionals h
      (expansion_of_found htarget hhandles hchild (exists_of_guarded hexact))
  split at hresult
  next cname hcname =>
    have hexpansion := expansion_of_found htarget hhandles hchild (exists_of_guarded hcname)
    split at hresult
    · obtain rfl := some.inj hresult
      exact hrule.servfail h _
    next step =>
      obtain ⟨cnameTarget, hfound, rfl⟩ := map_eq_some_iff.mp hresult
      exact hresume step rfl _ _ _ state (singleNameRrsetTarget_wireLen hfound)
        (hrule.expanded h hexpansion)
  split at hresult
  · obtain ⟨wildcardName, -, rfl⟩ := map_eq_some_iff.mp hresult
    exact hrule.denial (hrule.soa (hrule.rcode h _)) _ _
  · simp at hresult

theorem resolveStep (hrule : image.LookupRule qclass P) (hbuilt : image.WellBuilt)
    (hqtype : qtype ≠ RecordType.any) (hresume : ResumeKeeps P resume) (remaining : ℕ)
    (htarget : target.wireLen ≤ 255) (hint : ImageTargetNode) (h : P plan) (state : ChainState) :
    P (image.resolveStep qtype qclass remaining resume target hint plan state) := by
  unfold ZoneImage.resolveStep
  dsimp only
  generalize image.ordinaryTargetNode hint = targetNode
  split
  · exact hrule.servfail h _
  split
  · exact hrule.continuation h _ _
  split
  next delegation hcut => exact hrule.continuation (hrule.cut h (hbuilt.cut_isRrset hcut)) _ _
  split
  next dname hdname =>
    unfold resolveDnameAt
    split
    · exact hrule.servfail h _
    next step =>
      refine hrule.followDname (hrule.servfail h _) (hrule.rcode h _) h
        (hbuilt.queryDname_isRrset hdname) htarget ?_
      intro _ target hint next htarget hnext
      exact hresume step rfl target hint next state htarget hnext
  split
  next result hresult =>
    split at hresult
    next hnone =>
      obtain ⟨node, hclosest, hresult⟩ := bind_eq_some_iff.mp hresult
      exact hrule.resolveWildcard hqtype hresume h htarget
        (Prod.ext (isNone_iff_eq_none.mp hnone) hclosest) hresult
    · simp at hresult
  split
  · split
    · exact hrule.servfail h _
    simp only [if_false, Bool.false_eq_true]
    split
    next rrset hexact =>
      exact hrule.additionals h (findRrsetAtNode_isRrset (exists_of_guarded hexact))
    split
    next cname hcname =>
      exact hrule.resolveCname hresume h (findRrsetAtNode_isRrset (exists_of_guarded hcname)) _
    · exact hrule.denial (hrule.soa (hrule.rcode h _)) _ _
  · exact hrule.denial (hrule.soa (hrule.rcode h _)) _ _

theorem chain (hrule : image.LookupRule qclass P) (hbuilt : image.WellBuilt)
    (hqtype : qtype ≠ RecordType.any) (remaining : ℕ) :
    ResumeKeeps P (some (image.resolveIndirectionTarget qtype qclass remaining)) := by
  induction remaining with
  | zero =>
    rintro step ⟨⟩ target hint plan state htarget h
    exact hrule.resolveStep hbuilt hqtype resumeKeeps_none 0 htarget hint h state
  | succ remaining ih =>
    rintro step ⟨⟩ target hint plan state htarget h
    exact hrule.resolveStep hbuilt hqtype ih (remaining + 1) htarget hint h state

theorem chainResume (hrule : image.LookupRule qclass P) (hbuilt : image.WellBuilt)
    (hqtype : qtype ≠ RecordType.any) (maxCnameChain : ℕ) :
    ResumeKeeps P (image.chainResume qtype qclass maxCnameChain) := by
  cases maxCnameChain with
  | zero => exact resumeKeeps_none
  | succ remaining => exact hrule.chain hbuilt hqtype remaining

variable {anyResponse : AnyResponseMode} {maxCnameChain : ℕ}

theorem lookupDname (hrule : image.LookupRule qclass P) (hbuilt : image.WellBuilt)
    (hqname : qname.wireLen ≤ 255) (exactNode : Option ℕ) {dname : ℕ}
    (hdname : image.IsRrset dname) :
    P (image.lookupDname qname qtype qclass maxCnameChain exactNode dname anyResponse) := by
  unfold ZoneImage.lookupDname
  split
  · exact hrule.servfail hrule.start _
  next step hstep =>
    refine hrule.followDname (hrule.servfail hrule.start _) (hrule.rcode hrule.start _) hrule.start
      hdname hqname ?_
    intro hqtype target hint next htarget hnext
    exact hrule.chainResume hbuilt hqtype maxCnameChain step hstep target hint next _ htarget hnext

/-- What a wildcard answers a question for every type with. -/
theorem wildcardAny (hrule : image.LookupRule qclass P) (hqname : qname.wireLen ≤ 255)
    (hhandles : image.queryNodeHandles qname false = (none, some closestNode))
    (hchild : image.findChild closestNode [42] = some wildcardNode)
    (h : image.lookupWildcardAtClosestNode closestNode qname RecordType.any qclass maxCnameChain
      anyResponse = some result) : P result := by
  have hany : ∀ rrset ∈ image.anyRrsetsAtNode wildcardNode qclass,
      image.Expansion qclass rrset qname := by
    intro rrset hmem
    obtain ⟨found, hentry, hclass, -⟩ := scanAnyRrsets_mem hmem
    exact ⟨hqname, congrArg Prod.fst hhandles,
      closestNode, wildcardNode, found, congrArg Prod.snd hhandles, hchild, hentry, hclass⟩
  unfold lookupWildcardAtClosestNode at h
  simp only [hchild, if_true] at h
  cases anyResponse with
  | minimal =>
    cases hminimal : image.minimalAnyRrsetAtNode wildcardNode qclass with
    | some rrset =>
      simp only [hminimal, map_some] at h
      obtain rfl := some.inj h
      exact hrule.expandedAdditionals hrule.start (hany rrset (mem_of_mem_head? hminimal))
    | none =>
      have hcname : image.findRrsetAtNode wildcardNode RecordType.cname qclass = none := by
        by_contra hne
        obtain ⟨cname, hfound⟩ := ne_none_iff_exists'.mp hne
        exact anyRrsets_ne_nil_of_cname hfound (List.head?_eq_none_iff.mp hminimal)
      simp only [hminimal, map_none, hcname, ite_self] at h
      split at h
      · obtain ⟨wildcardName, -, rfl⟩ := map_eq_some_iff.mp h
        exact hrule.denial (hrule.nodata _) _ _
      · simp at h
  | full =>
    cases hrecs : (image.pushFullAnyRrsetsWithOwnerAtNode wildcardNode qclass qname
        positive).answerHasRecords with
    | true =>
      simp only [hrecs, if_true] at h
      obtain rfl := some.inj h
      exact hrule.expandedAny hqname hany
    | false =>
      have hcname : image.findRrsetAtNode wildcardNode RecordType.cname qclass = none := by
        by_contra hne
        obtain ⟨cname, hfound⟩ := ne_none_iff_exists'.mp hne
        rw [fullAnyWithOwner_hasRecords qname (anyRrsets_ne_nil_of_cname hfound)] at hrecs
        simp at hrecs
      simp only [hrecs, Bool.false_eq_true, if_false, hcname, ite_self] at h
      split at h
      · obtain ⟨wildcardName, -, rfl⟩ := map_eq_some_iff.mp h
        exact hrule.denial (hrule.nodata _) _ _
      · simp at h

theorem lookupWildcard (hrule : image.LookupRule qclass P) (hbuilt : image.WellBuilt)
    (hqname : qname.wireLen ≤ 255)
    (hhandles : image.queryNodeHandles qname false = (none, some closestNode))
    (h : image.lookupWildcardAtClosestNode closestNode qname qtype qclass maxCnameChain
      anyResponse = some result) :
    P result := by
  cases hchild : image.findChild closestNode [42] with
  | none => simp [lookupWildcardAtClosestNode, hchild] at h
  | some wildcardNode =>
    by_cases hqtype : qtype = RecordType.any
    · rw [hqtype] at h
      exact hrule.wildcardAny hqname hhandles hchild h
    unfold lookupWildcardAtClosestNode at h
    simp only [hchild, hqtype, if_false] at h
    split at h
    next plan hanswered =>
      obtain rfl := some.inj h
      split at hanswered
      · obtain ⟨rrset, hrrset, rfl⟩ := map_eq_some_iff.mp hanswered
        exact hrule.expandedAdditionals hrule.start
          (expansion_of_found hqname hhandles hchild hrrset)
      · simp at hanswered
    split at h
    next cname hcname =>
      have hexpansion := expansion_of_found hqname hhandles hchild (exists_of_guarded hcname)
      split at h
      · obtain rfl := some.inj h
        exact hrule.servfail hrule.start _
      next step hstep =>
        split at h
        · obtain rfl := some.inj h
          exact hrule.expanded hrule.start hexpansion
        next target htarget =>
          obtain rfl := some.inj h
          exact hrule.chainResume hbuilt hqtype maxCnameChain step hstep _ _ _ _
            (singleNameRrsetTarget_wireLen htarget) (hrule.expanded hrule.start hexpansion)
    split at h
    · obtain ⟨wildcardName, -, rfl⟩ := map_eq_some_iff.mp h
      exact hrule.denial (hrule.nodata _) _ _
    · simp at h

/-- What holds of every plan a lookup builds, of a referral and of an answer at the name's own
node holds of the plan for a question. -/
theorem lookupResponsePlan (hrule : image.LookupRule qclass P) {Q : ZoneImageLookupPlan → Prop}
    (hfinal : ∀ plan, P plan → Q plan) (hbuilt : image.WellBuilt) (hqname : qname.wireLen ≤ 255)
    (hhint : qname.LowercaseHint hint)
    (hreferral : ∀ delegation, image.IsRrset delegation → Q (image.addGlueForNsRrset delegation
      (.referral delegation (image.rrsetPlanMetrics delegation))))
    (hexact : ∀ node result, image.findNodeWithAsciiLowercaseHint qname hint = some node →
      image.exactAnswerPlan node qtype qclass anyResponse = some result → Q result) :
    Q (image.lookupResponsePlan qname qtype qclass maxCnameChain anyResponse hint) := by
  unfold ZoneImage.lookupResponsePlan
  dsimp only
  split
  next delegation hcut => exact hreferral delegation (hbuilt.cut_isRrset hcut)
  split
  next dname hdname =>
    exact hfinal _ (hrule.lookupDname hbuilt hqname _ (hbuilt.queryDname_isRrset hdname))
  split
  next node hnode =>
    split
    next result hresult => exact hexact node result (queryNodeHandles_exact hnode).1 hresult
    next hanswer =>
      split
      next cname hcname =>
        have hqtype : qtype ≠ RecordType.any := by
          rintro rfl
          rw [exactAnswerPlan_any hanswer] at hcname
          simp at hcname
        have hrrset := findRrsetAtNode_isRrset (exists_of_guarded hcname)
        exact hfinal _ (hrule.resolveCname (hrule.chainResume hbuilt hqtype maxCnameChain)
          hrule.start hrrset _)
      · exact hfinal _ (hrule.nodata _)
  next hnode =>
    split
    next result hresult =>
      obtain ⟨node, hclosest, hresult⟩ := bind_eq_some_iff.mp hresult
      have hhandles : image.queryNodeHandles qname false = (none, some node) := by
        rw [← queryNodeHandles_hint hhint]
        exact Prod.ext hnode hclosest
      exact hfinal _ (hrule.lookupWildcard hbuilt hqname hhandles hresult)
    · exact hfinal _ (hrule.nxdomain _)

end LookupRule

end ZoneImage

end BoronDns
