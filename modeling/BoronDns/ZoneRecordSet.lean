import BoronDns.Lib.Except
import BoronDns.Lib.FiniteMap
import BoronDns.TransferIdentity

/-!
The records of a transferred zone as a whole: the checks that hold between
records, and how records are gathered into RRsets. An RRset takes the lowest time
to live of its records, and one copy of each record that differs in more than the
case of names.
-/

namespace BoronDns

open List RecordType

variable (known : Option NameKey) (ownerKinds : OwnerKinds) (record : ResourceRecord)
  (zoneApex : DomainName)

def validateExactApexSoa (records : List ResourceRecord) : Except AxfrError Unit :=
  match records.filter fun record => record.rrType = soa with
  | [soa] =>
    if soa.owner.toAsciiLowercased = zoneApex.toAsciiLowercased then .ok ()
    else .error .invalidZoneSoa
  | _ => .error .invalidZoneSoa

def validateApexNs (records : List ResourceRecord) : Except AxfrError Unit :=
  if records.any fun record =>
      record.owner.toAsciiLowercased = zoneApex.toAsciiLowercased ∧ record.rrType = ns then
    .ok ()
  else .error .missingApexNs

structure OwnerRecordKinds where
  hasCname : Bool := false
  hasDname : Bool := false
  hasNs : Bool := false
  hasCnameIncompatibleData : Bool := false
  cnameTarget : Option NameKey := none
  dnameTarget : Option NameKey := none

def isDnssecCnameExceptionType (rrType : UInt16) : Bool :=
  rrType == rrsig || rrType == nsec || rrType == nsec3

/-- The target of an alias, which has to be the one its owner already has, if any. -/
def checkedAliasTarget (rdata : Rdata) (multiple : AxfrError) : Except AxfrError NameKey :=
  match DomainName.fromUncompressedWire rdata with
  | none => .error .invalidRdata
  | some target =>
    if known.any (· ≠ target.canonicalKey) then .error multiple else .ok target.canonicalKey

/-- The kinds of records at an owner with one record more. -/
def OwnerRecordKinds.add (kinds : OwnerRecordKinds) (record : ResourceRecord) :
    Except AxfrError OwnerRecordKinds :=
  if record.rrType = dname then do
    let target ← checkedAliasTarget kinds.dnameTarget record.rdata .multipleDnameRecords
    .ok { kinds with dnameTarget := some target, hasDname := true }
  else if record.rrType = cname then do
    let target ← checkedAliasTarget kinds.cnameTarget record.rdata .multipleCnameRecords
    .ok { kinds with cnameTarget := some target, hasCname := true }
  else if record.rrType = ns then
    .ok { kinds with hasNs := true, hasCnameIncompatibleData := true }
  else if !isDnssecCnameExceptionType record.rrType then .ok
    { kinds with hasCnameIncompatibleData := true }
  else .ok kinds

abbrev OwnerKinds := AList (fun _ : DomainName => OwnerRecordKinds)

def ownerKindsStep : Except AxfrError OwnerKinds := do
  let ownerKey := record.owner.toAsciiLowercased
  let kinds ← ((ownerKinds.lookup ownerKey).getD {}).add record
  .ok (ownerKinds.insert ownerKey kinds)

def validateCnameAndDnameCoexistence (records : List ResourceRecord) : Except AxfrError Unit := do
  let ownerKinds ← records.foldlM ownerKindsStep ∅
  if ownerKinds.entries.any fun entry => entry.2.hasDname && entry.2.hasCname then
    .error .dnameCoexistsWithCname
  else if ownerKinds.entries.any fun entry =>
      entry.2.hasDname && entry.2.hasNs && entry.1 != zoneApex.toAsciiLowercased then
    .error .dnameCoexistsWithNs
  else if ownerKinds.entries.any fun entry => entry.2.hasCname &&
      entry.2.hasCnameIncompatibleData then
    .error .cnameCoexistsWithOtherData
  else .ok ()

def validateZoneRecordSet (records : List ResourceRecord) : Except AxfrError Unit := do
  validateExactApexSoa zoneApex records
  validateApexNs zoneApex records
  validateCnameAndDnameCoexistence zoneApex records

/-- An RRset that is being gathered, with a record more. -/
def mergeRecord (existing : Rrset) (record : ResourceRecord) : Rrset :=
  { existing with
    ttl := min existing.ttl record.ttl
    rdatas :=
      if existing.rdatas.any fun rdata =>
          canonicalRdataIdentity record.rrType rdata =
              canonicalRdataIdentity record.rrType record.rdata then
        existing.rdatas
      else existing.rdatas ++ [record.rdata] }

/-- A record is added to the RRset of its owner, type and class, or starts one. -/
def gatherRecord : List Rrset → ResourceRecord → List Rrset
  | [], record => [⟨record.owner, record.rrType, record.cls, record.ttl, [record.rdata]⟩]
  | existing :: rest, record =>
    if existing.owner = record.owner ∧ existing.rrType = record.rrType ∧
        existing.cls = record.cls then
      mergeRecord existing record :: rest
    else existing :: gatherRecord rest record

def rrsetsFromRecords (records : List ResourceRecord) : List Rrset :=
  records.foldl (fun rrsets record => gatherRecord rrsets (normalizeRecordOwner record)) []

section Coexistence

/-- The key of the name that the data of a CNAME or DNAME record is. -/
def aliasTarget : Option NameKey :=
  (DomainName.fromUncompressedWire record.rdata).map DomainName.canonicalKey

def sameOwner (left right : ResourceRecord) : Prop :=
  left.owner.toAsciiLowercased = right.owner.toAsciiLowercased

/-- A type that may not stand beside a CNAME. -/
def isCnameIncompatible (rrType : UInt16) : Bool :=
  rrType != dname && rrType != cname && !isDnssecCnameExceptionType rrType

/-- What the check of CNAME and DNAME records asks of a set of records. -/
structure Coexist (records : List ResourceRecord) : Prop where
  readable : ∀ r ∈ records, r.rrType = dname ∨ r.rrType = cname → (aliasTarget r).isSome
  single : ∀ r ∈ records, ∀ s ∈ records, sameOwner r s → r.rrType = s.rrType →
    r.rrType = dname ∨ r.rrType = cname → aliasTarget r = aliasTarget s
  dnameCname : ∀ r ∈ records, ∀ s ∈ records, sameOwner r s → r.rrType = dname →
    s.rrType ≠ cname
  dnameNs : ∀ r ∈ records, ∀ s ∈ records, sameOwner r s → r.rrType = dname →
    s.rrType = ns → r.owner.toAsciiLowercased = zoneApex.toAsciiLowercased
  cnameOther : ∀ r ∈ records, ∀ s ∈ records, sameOwner r s → r.rrType = cname →
    isCnameIncompatible s.rrType = false

/-- Some record of the owner has the property. -/
def HasAt (records : List ResourceRecord) (owner : DomainName) (p : ResourceRecord → Prop) : Prop :=
  ∃ r ∈ records, r.owner.toAsciiLowercased = owner ∧ p r

theorem hasAt_append (records : List ResourceRecord) (last : ResourceRecord) (owner : DomainName)
    (p : ResourceRecord → Prop) :
    HasAt (records ++ [last]) owner p ↔ HasAt records owner p ∨
      (last.owner.toAsciiLowercased = owner ∧ p last) := by
  simp [HasAt, or_and_right, exists_or]

/-- The target noted for a type at an owner is the one of all its records of that type. -/
def NotedTarget (records : List ResourceRecord) (owner : DomainName) (rrType : UInt16)
    (known : Option NameKey) : Prop :=
  ∀ target, target.isSome ∧ known = target ↔
    HasAt records owner fun r => r.rrType = rrType ∧ aliasTarget r = target

/-- What is noted of an owner after the records of a list. -/
structure KindsOf (records : List ResourceRecord) (owner : DomainName) (kinds : OwnerRecordKinds) :
    Prop where
  cname : kinds.hasCname = true ↔ HasAt records owner fun r => r.rrType = cname
  dname : kinds.hasDname = true ↔ HasAt records owner fun r => r.rrType = dname
  ns : kinds.hasNs = true ↔ HasAt records owner fun r => r.rrType = ns
  incompatible : kinds.hasCnameIncompatibleData = true ↔
    HasAt records owner fun r => isCnameIncompatible r.rrType = true
  cnameTarget : NotedTarget records owner RecordType.cname kinds.cnameTarget
  dnameTarget : NotedTarget records owner RecordType.dname kinds.dnameTarget

/-- The targets of the aliases of a list are readable and one per owner and type. -/
structure AliasTargets (records : List ResourceRecord) : Prop where
  readable : ∀ r ∈ records, r.rrType = dname ∨ r.rrType = cname → (aliasTarget r).isSome
  single : ∀ r ∈ records, ∀ s ∈ records, sameOwner r s → r.rrType = s.rrType →
    r.rrType = dname ∨ r.rrType = cname → aliasTarget r = aliasTarget s

variable {records : List ResourceRecord} {owner : DomainName} {kinds : OwnerRecordKinds}
  {last : ResourceRecord}

theorem checkedAliasTarget_ok_iff (multiple : AxfrError) (key : NameKey) :
    checkedAliasTarget known record.rdata multiple = .ok key ↔
      aliasTarget record = some key ∧ (known = none ∨ known = aliasTarget record) := by
  unfold checkedAliasTarget aliasTarget
  cases DomainName.fromUncompressedWire record.rdata with
  | none => simp
  | some name =>
    cases known with
    | none => simp
    | some target => by_cases hsame : target = name.canonicalKey <;> simp [hsame]

/-- A target can be read and is the one already noted. -/
def TargetFits : Prop :=
  (aliasTarget record).isSome ∧ (known = none ∨ known = aliasTarget record)

/-- The kinds of records at an owner with one record more, if its target fits. -/
def OwnerRecordKinds.noted (kinds : OwnerRecordKinds) (record : ResourceRecord) :
    OwnerRecordKinds where
  hasCname := kinds.hasCname || decide (record.rrType = cname)
  hasDname := kinds.hasDname || decide (record.rrType = dname)
  hasNs := kinds.hasNs || decide (record.rrType = ns)
  hasCnameIncompatibleData := kinds.hasCnameIncompatibleData || isCnameIncompatible record.rrType
  cnameTarget := if record.rrType = cname then aliasTarget record else kinds.cnameTarget
  dnameTarget := if record.rrType = dname then aliasTarget record else kinds.dnameTarget

theorem add_ok_iff (kinds next : OwnerRecordKinds) (record : ResourceRecord) :
    kinds.add record = .ok next ↔ (record.rrType = dname → TargetFits kinds.dnameTarget record) ∧
        (record.rrType = cname → TargetFits kinds.cnameTarget record) ∧
        kinds.noted record = next := by
  have hchecked : ∀ (known : Option NameKey) (multiple : AxfrError) (f : Option NameKey →
      OwnerRecordKinds),
      (checkedAliasTarget known record.rdata multiple >>= fun target => .ok (f (some target))) =
      .ok next ↔
        TargetFits known record ∧ f (aliasTarget record) = next := by
    intro known multiple f
    simp only [Except.bind_eq_ok_iff, checkedAliasTarget_ok_iff, TargetFits]
    cases aliasTarget record <;> simp
  unfold OwnerRecordKinds.add OwnerRecordKinds.noted
  by_cases hdname : record.rrType = dname
  · rw [if_pos hdname, hchecked kinds.dnameTarget .multipleDnameRecords fun target =>
      { kinds with dnameTarget := target, hasDname := true }]
    simp [hdname, isCnameIncompatible, dname, cname, ns]
  by_cases hcname : record.rrType = cname
  · rw [if_neg hdname, if_pos hcname, hchecked kinds.cnameTarget .multipleCnameRecords fun target =>
      { kinds with cnameTarget := target, hasCname := true }]
    simp [hcname, isCnameIncompatible, dname, cname, ns]
  have hother : isCnameIncompatible record.rrType = !isDnssecCnameExceptionType record.rrType := by
    simp [isCnameIncompatible, hdname, hcname]
  by_cases hns : record.rrType = ns
  · simp [hns, isCnameIncompatible, isDnssecCnameExceptionType, dname, cname, ns, rrsig, nsec,
      nsec3]
  · cases hexception : isDnssecCnameExceptionType record.rrType <;> simp [hdname, hcname, hns,
      hother, hexception]

theorem NotedTarget.add {rrType : UInt16} {known : Option NameKey}
    (h : NotedTarget records owner rrType known) (hlast : last.owner.toAsciiLowercased = owner)
    (hfits : last.rrType = rrType → TargetFits known last) :
    NotedTarget (records ++ [last]) owner rrType
      (if last.rrType = rrType then aliasTarget last else known) := by
  intro target
  rw [hasAt_append, ← h target]
  by_cases htype : last.rrType = rrType
  · obtain ⟨hsome, hknown⟩ := hfits htype
    grind
  · simp [htype]

theorem KindsOf.add (h : KindsOf records owner kinds) (hlast : last.owner.toAsciiLowercased = owner)
    {next : OwnerRecordKinds} (hadd : kinds.add last = .ok next) :
    KindsOf (records ++ [last]) owner next := by
  obtain ⟨hdname, hcname, rfl⟩ := (add_ok_iff _ _ _).mp hadd
  refine ⟨?_, ?_, ?_, ?_, h.cnameTarget.add hlast hcname, h.dnameTarget.add hlast hdname⟩ <;>
    simp [OwnerRecordKinds.noted, hasAt_append, hlast, h.cname, h.dname, h.ns, h.incompatible]

def kindsAt (owner : DomainName) : OwnerRecordKinds :=
  (ownerKinds.lookup owner).getD {}

theorem kindsAt_insert (owner other : DomainName) (kinds : OwnerRecordKinds) :
    kindsAt (ownerKinds.insert owner kinds) other = if other = owner then kinds
      else kindsAt ownerKinds other := by
  rw [kindsAt, AList.lookup_insert_ite]
  split
  · rfl
  · rfl

variable {final : OwnerKinds}

theorem foldlM_ownerKindsStep_concat : (records ++ [last]).foldlM ownerKindsStep ∅ = .ok final ↔
      ∃ middle next, records.foldlM ownerKindsStep ∅ = .ok middle ∧
        (kindsAt middle last.owner.toAsciiLowercased).add last = .ok next ∧
        middle.insert last.owner.toAsciiLowercased next = final := by
  simp [foldlM_append, Except.bind_eq_ok_iff, ownerKindsStep, kindsAt]

/-- After the loop over the records the kinds of records of every owner are known. -/
theorem kindsOf_foldlM (h : records.foldlM ownerKindsStep ∅ = .ok final)
    (owner : DomainName) : KindsOf records owner (kindsAt final owner) := by
  induction records using List.reverseRecOn generalizing final with
  | nil =>
    obtain rfl := Except.ok.inj h
    show KindsOf [] owner {}
    constructor <;> simp [HasAt, NotedTarget, Option.forall]
  | append_singleton records last ih =>
    obtain ⟨middle, next, hmiddle, hnext, rfl⟩ := foldlM_ownerKindsStep_concat.mp h
    rw [kindsAt_insert]
    split
    next hown =>
      subst hown
      exact (ih hmiddle).add rfl hnext
    next hown =>
      obtain ⟨hcname, hdname, hns, hincompatible, hcnameTarget, hdnameTarget⟩ := ih hmiddle
      constructor <;> simpa only [NotedTarget, hasAt_append, Ne.symm hown, false_and, or_false]

/-- The loop over the records ends exactly when the targets of the aliases agree. -/
theorem exists_foldlM_iff (records : List ResourceRecord) :
    (∃ final, records.foldlM ownerKindsStep ∅ = .ok final) ↔ AliasTargets records := by
  constructor
  · rintro ⟨final, hfinal⟩
    have hnoted : ∀ r ∈ records, ∀ owner, r.owner.toAsciiLowercased = owner →
        (r.rrType = dname → (aliasTarget r).isSome ∧ (kindsAt final owner).dnameTarget =
        aliasTarget r) ∧
        (r.rrType = cname → (aliasTarget r).isSome ∧ (kindsAt final owner).cnameTarget =
        aliasTarget r) := by
      intro r hr owner hown
      have h := kindsOf_foldlM hfinal owner
      exact ⟨fun htype => (h.dnameTarget _).mpr ⟨r, hr, hown, htype, rfl⟩,
        fun htype => (h.cnameTarget _).mpr ⟨r, hr, hown, htype, rfl⟩⟩
    refine ⟨fun r hr => ?_, fun r hr s hs hown htype => ?_⟩
    · exact Or.rec (fun htype => ((hnoted r hr _ rfl).1 htype).1) fun htype =>
        ((hnoted r hr _ rfl).2 htype).1
    · rintro (halias | halias)
      · exact ((hnoted r hr _ hown).1 halias).2.symm.trans
          ((hnoted s hs _ rfl).1 (htype ▸ halias)).2
      · exact ((hnoted r hr _ hown).2 halias).2.symm.trans
          ((hnoted s hs _ rfl).2 (htype ▸ halias)).2
  · intro h
    induction records using List.reverseRecOn with
    | nil => exact ⟨∅, rfl⟩
    | append_singleton records last ih =>
      obtain ⟨middle, hmiddle⟩ := ih ⟨fun r hr => h.readable r (mem_append_left _ hr),
        fun r hr s hs => h.single r (mem_append_left _ hr) s (mem_append_left _ hs)⟩
      have hmem : last ∈ records ++ [last] := mem_append_right _ (mem_singleton_self _)
      have hkinds := kindsOf_foldlM hmiddle last.owner.toAsciiLowercased
      have hfits : ∀ {known rrType}, NotedTarget records last.owner.toAsciiLowercased rrType known →
          rrType = dname ∨ rrType = cname → last.rrType = rrType → TargetFits known last := by
        rintro known rrType hnoted halias rfl
        refine ⟨h.readable last hmem halias, ?_⟩
        cases known with
        | none => exact .inl rfl
        | some target =>
          obtain ⟨r, hr, hown, htype, htarget⟩ := (hnoted (some target)).mp ⟨rfl, rfl⟩
          exact .inr (htarget.symm.trans (h.single r (mem_append_left _ hr) last hmem hown htype
            (htype ▸ halias)))
      exact ⟨_, foldlM_ownerKindsStep_concat.mpr ⟨middle, _, hmiddle, (add_ok_iff _ _ _).mpr
        ⟨hfits hkinds.dnameTarget (.inl rfl), hfits hkinds.cnameTarget (.inr rfl), rfl⟩, rfl⟩⟩

/-- A check of all owners for two kinds of records finds two records of one owner. -/
theorem any_entries_iff (f g : OwnerRecordKinds → Bool) (guard : DomainName → Bool)
    {p q : ResourceRecord → Prop} (hf : ∀ owner, f (kindsAt final owner) = true ↔
      HasAt records owner p)
    (hg : ∀ owner, g (kindsAt final owner) = true ↔ HasAt records owner q) (hempty : f {} = false) :
    (final.entries.any fun entry => f entry.2 && g entry.2 && guard entry.1) = true ↔
      ∃ r ∈ records, ∃ s ∈ records, sameOwner r s ∧ p r ∧ q s ∧
      guard r.owner.toAsciiLowercased = true := by
  simp only [any_eq_true, Sigma.exists, Bool.and_eq_true]
  constructor
  · rintro ⟨owner, kinds, hmem, ⟨hp, hq⟩, hguard⟩
    obtain rfl : kindsAt final owner = kinds := by
      rw [kindsAt, AList.mem_lookup_iff.mpr hmem, Option.getD_some]
    obtain ⟨r, hr, rfl, hpr⟩ := (hf owner).mp hp
    obtain ⟨s, hs, hown, hqs⟩ := (hg _).mp hq
    exact ⟨r, hr, s, hs, hown.symm, hpr, hqs, hguard⟩
  · rintro ⟨r, hr, s, hs, hown, hp, hq, hguard⟩
    have hfp := (hf _).mpr ⟨r, hr, rfl, hp⟩
    refine ⟨_, kindsAt final _, AList.mem_lookup_iff.mp ?_,
      ⟨hfp, (hg _).mpr ⟨s, hs, hown.symm, hq⟩⟩, hguard⟩
    unfold kindsAt at hfp ⊢
    cases hlook : final.lookup r.owner.toAsciiLowercased with
    | none => simp [hlook, hempty] at hfp
    | some kinds => rfl

/-- The check of CNAME and DNAME records says what `Coexist` says. -/
theorem validateCnameAndDnameCoexistence_ok_iff (records : List ResourceRecord) :
    validateCnameAndDnameCoexistence zoneApex records = .ok () ↔ Coexist zoneApex records := by
  have htargets := exists_foldlM_iff records
  unfold validateCnameAndDnameCoexistence
  cases hfold : records.foldlM ownerKindsStep ∅ with
  | error e =>
    simp only [hfold, reduceCtorEq, exists_false, false_iff] at htargets
    exact iff_of_false nofun fun h => htargets ⟨h.readable, h.single⟩
  | ok final =>
    have hof := kindsOf_foldlM hfold
    have hdnameCname :=
      any_entries_iff OwnerRecordKinds.hasDname OwnerRecordKinds.hasCname (fun _ => true)
      (fun owner => (hof owner).dname) (fun owner => (hof owner).cname) rfl
    have hdnameNs := any_entries_iff OwnerRecordKinds.hasDname OwnerRecordKinds.hasNs
      (fun owner => owner != zoneApex.toAsciiLowercased) (fun owner => (hof owner).dname)
      (fun owner => (hof owner).ns) rfl
    have hcnameOther :=
      any_entries_iff OwnerRecordKinds.hasCname OwnerRecordKinds.hasCnameIncompatibleData
      (fun _ => true) (fun owner => (hof owner).cname) (fun owner => (hof owner).incompatible) rfl
    simp only [Bool.and_true, and_true] at hdnameCname hcnameOther
    rw [Except.ok_bind_eq]
    constructor
    · intro hok
      obtain ⟨hreadable, hsingle⟩ := htargets.mp ⟨final, hfold⟩
      split_ifs at hok with h₁ h₂ h₃
      refine ⟨hreadable, hsingle, ?_, ?_, ?_⟩
      · exact fun r hr s hs hown hdname hcname =>
          h₁ (hdnameCname.mpr ⟨r, hr, s, hs, hown, hdname, hcname⟩)
      · intro r hr s hs hown hdname hns
        by_contra hapex
        exact h₂ (hdnameNs.mpr ⟨r, hr, s, hs, hown, hdname, hns, bne_iff_ne.mpr hapex⟩)
      · exact fun r hr s hs hown hcname => Bool.eq_false_iff.mpr fun hother =>
          h₃ (hcnameOther.mpr ⟨r, hr, s, hs, hown, hcname, hother⟩)
    · intro h
      rw [if_neg (mt hdnameCname.mp ?_), if_neg (mt hdnameNs.mp ?_), if_neg (mt hcnameOther.mp ?_)]
      · rintro ⟨r, hr, s, hs, hown, hcname, hother⟩
        exact absurd hother (by simp [h.cnameOther r hr s hs hown hcname])
      · rintro ⟨r, hr, s, hs, hown, hdname, hns, hapex⟩
        exact bne_iff_ne.mp hapex (h.dnameNs r hr s hs hown hdname hns)
      · rintro ⟨r, hr, s, hs, hown, hdname, hcname⟩
        exact h.dnameCname r hr s hs hown hdname hcname

/-- Records that stand for records of a set that passes pass too. -/
theorem Coexist.of_represented {zoneApex : DomainName} {whole : List ResourceRecord}
    (h : Coexist zoneApex whole) {part : List ResourceRecord}
    (hpart : ∀ r ∈ part, ∃ s ∈ whole, sameOwner r s ∧ r.rrType = s.rrType ∧
      (r.rrType = dname ∨ r.rrType = cname → aliasTarget r = aliasTarget s)) :
    Coexist zoneApex part := by
  choose! whole' hmem hown htype htarget using hpart
  have hsame : ∀ {r t}, r ∈ part → t ∈ part → sameOwner r t → sameOwner (whole' r) (whole' t) :=
    fun hr ht h => ((hown _ hr).symm.trans h).trans (hown _ ht)
  constructor
  · intro r hr halias
    rw [htarget r hr halias]
    exact h.readable _ (hmem r hr) (htype r hr ▸ halias)
  · intro r hr t ht hrt hrtype halias
    rw [htarget r hr halias, htarget t ht (hrtype ▸ halias)]
    exact h.single _ (hmem r hr) _ (hmem t ht) (hsame hr ht hrt)
      ((htype r hr).symm.trans (hrtype.trans (htype t ht))) (htype r hr ▸ halias)
  · intro r hr t ht hrt hdname
    rw [htype t ht]
    exact h.dnameCname _ (hmem r hr) _ (hmem t ht) (hsame hr ht hrt) (htype r hr ▸ hdname)
  · intro r hr t ht hrt hdname hns
    rw [show r.owner.toAsciiLowercased = _ from hown r hr]
    exact h.dnameNs _ (hmem r hr) _ (hmem t ht) (hsame hr ht hrt) (htype r hr ▸ hdname)
      (htype t ht ▸ hns)
  · intro r hr t ht hrt hcname
    rw [htype t ht]
    exact h.cnameOther _ (hmem r hr) _ (hmem t ht) (hsame hr ht hrt) (htype r hr ▸ hcname)

end Coexistence

end BoronDns
