import BoronDns.SnapshotInvariant

/-!
One update of a consistent snapshot. The first loop keeps each count equal to the
sum over the RRsets replaced so far; the changes of presence it collects bring the
name indexes, the special key sets and the byte counts to those of the new RRsets.
This needs that an added owner is below the origin or has at most one label, that
in the root zone a class does not gain its first or lose its last name below the
root, and that the zone does not start or stop to be of class IN only.
-/

namespace BoronDns

open List AList DomainName Option
open DenialIndexes (ParamsFit keysMatch_between recordTotal)

variable {rrsets : RrsetMap} {index : NameClassIndex} {origin : DomainName}
  {replacements : List Replacement}

namespace ZoneSnapshot

variable {platform : Platform}

/-- Some name below the root is used in the class. -/
def HasNameBelowRoot (rrsets : RrsetMap) (cls : UInt16) : Prop :=
  ∃ key rrset, rrsets.lookup key = some rrset ∧ key.cls = cls ∧ rrset.owner.labels ≠ []

/-- The replacements have distinct keys, and each RRset has the key it is stored
under. -/
structure WellKeyed (replacements : List Replacement) : Prop where
  distinct : (replacements.map Prod.fst).Nodup
  matching : ∀ key rrset, (key, some rrset) ∈ replacements → rrset.key = key

/-- The condition under which an update is a rebuild. -/
structure UpdateFits (origin : DomainName) (rrsets : RrsetMap) (replacements : List Replacement) :
    Prop where
  additions : ∀ key rrset, (key, some rrset) ∈ replacements → rrsets.lookup key = none →
    rrset.owner.isBelow origin = true ∨ rrset.owner.labelCount ≤ 1
  rootNames : origin.labels = [] → ∀ cls,
    HasNameBelowRoot (rrsets.putAll replacements) cls ↔ HasNameBelowRoot rrsets cls
  classes : allIn (rrsets.putAll replacements) = allIn rrsets
  counts : rrsets.keys.length + (rrsets.putAll replacements).keys.length ≤ maxCount
  params : ParamsFit origin rrsets (rrsets.putAll replacements)

theorem keysMatch_putAll (h : KeysMatch rrsets)
    (hmatch : ∀ key rrset, (key, some rrset) ∈ replacements → rrset.key = key) :
    KeysMatch (rrsets.putAll replacements) := by
  induction replacements generalizing rrsets with
  | nil => exact h
  | cons change rest ih =>
    refine ih (fun key rrset hlook => ?_) fun key rrset hmem =>
      hmatch key rrset (mem_cons_of_mem _ hmem)
    rw [lookup_put] at hlook
    split at hlook
    next hkey => exact hkey ▸ hmatch _ _ (mem_cons.mpr (Or.inl (Prod.ext rfl hlook.symm)))
    · exact h key rrset hlook

section Counters

variable (later : RrsetMap) (key : RrsetKey) (next : Option Rrset) (count : ℕ)

theorem soaRecordCount_step (h : count = later.total soaShare) :
    (if key.rrType = RecordType.soa then count - recordsOf (later.lookup key) +
      recordsOf next else count) = (later.put key next).total soaShare := by
  rw [later.total_put_eq, h]
  cases later.lookup key <;> cases next <;>
    by_cases htype : key.rrType = RecordType.soa <;> simp [recordsOf, soaShare, htype]

theorem dnssecRrsetCount_step (h : count = later.total dnssecShare) :
    (if isDnssecRrType key.rrType then presenceCount count (later.lookup key) next else count) =
      (later.put key next).total dnssecShare := by
  split <;> rename_i htype
  · have hone (rrset : Rrset) : dnssecShare key rrset = 1 := by simp [dnssecShare, htype]
    have hle := later.share_le_total dnssecShare key
    rw [later.total_put_eq, h, presenceCount]
    cases hlook : later.lookup key with
    | none => cases next <;> simp [hone]
    | some rrset =>
      rw [hlook, share_some, hone] at hle
      cases next with
      | none => simp [hone]
      | some rrset =>
        simp [hone]
        omega
  · have hzero : ∀ rrset, AList.share dnssecShare key rrset = 0 := by
      intro rrset
      cases rrset <;> simp [dnssecShare, htype]
    rw [later.total_put_eq, hzero, hzero, h]
    rfl

theorem frequencies_step {frequencies : AList (fun _ : ℕ => ℕ)}
    (h : AList.CountsAre frequencies fun length => later.total (lengthShare length)) :
    AList.CountsAre (frequenciesAfter frequencies (later.lookup key) next) fun length =>
      (later.put key next).total (lengthShare length) := by
  have hremoved : AList.CountsAre ((later.lookup key).elim frequencies fun rrset =>
      AList.countDown frequencies rrset.rdatas.length) fun length =>
        later.total (lengthShare length) - AList.share (lengthShare length) key
            (later.lookup key) := by
    cases later.lookup key with
    | none => exact h
    | some rrset =>
      refine (countsAre_countDown h rrset.rdatas.length).congr fun length => ?_
      rw [share_some, lengthShare]
      congr 1
      exact if_congr eq_comm rfl rfl
  cases next with
  | none =>
    refine hremoved.congr fun length => ?_
    rw [later.total_put_eq, share_none, Nat.add_zero]
  | some rrset =>
    refine (countsAre_countUp hremoved rrset.rdatas.length rfl).congr fun length => ?_
    rw [later.total_put_eq, share_some, lengthShare]
    congr 1
    exact if_congr eq_comm rfl rfl

end Counters

def ownerShare (key : RrsetKey) (_ : Rrset) : ℕ := key.owner.length

/-- The counts of the summary as sums over the RRsets. -/
structure ShapeTotals (summary : ZoneShapeSummary) (rrsets : RrsetMap) : Prop where
  rrsetCount : summary.rrsetCount = rrsets.total fun _ _ => 1
  rdataCount : summary.rdataCount = recordTotal rrsets
  singles : summary.singleRdataRrsetCount =
    rrsets.total fun _ rrset => if rrset.rdatas.length = 1 then 1 else 0
  multis : summary.multiRdataRrsetCount =
    rrsets.total fun _ rrset => if 1 < rrset.rdatas.length then 1 else 0
  spilled : summary.spilledRdataRrsetCount =
    rrsets.total fun _ rrset => if rrset.spilled then 1 else 0
  payload : summary.rdataPayloadBytes = rrsets.total fun _ rrset => payloadBytes rrset

/-- The part of the summary that the first loop keeps: the name bytes are moved by the
owners only. -/
structure ShapeCounts (start summary : ZoneShapeSummary) (rrsets later : RrsetMap) : Prop
    extends ShapeTotals summary later where
  logical : summary.nameKeyLogicalBytes + rrsets.total ownerShare =
    start.nameKeyLogicalBytes + later.total ownerShare
  enough : rrsets.total ownerShare ≤ start.nameKeyLogicalBytes
  unique : summary.nameKeyUniqueBytes = start.nameKeyUniqueBytes

variable {later : RrsetMap} {key : RrsetKey}

theorem ShapeCounts.step {start summary : ZoneShapeSummary} {next : Option Rrset}
    (h : ShapeCounts start summary rrsets later) (hkeys : KeysMatch later)
    (hnext : ∀ rrset : Rrset, next = some rrset → rrset.key = key) :
    ShapeCounts start (shapeAfter summary (later.lookup key) next) rrsets (later.put key next) := by
  have hfield : ∀ (f : Rrset → ℕ) (read : ZoneShapeSummary → ℕ),
      (∀ s rrset, read (removeRrsetFromShape s rrset) = read s - f rrset) →
      (∀ s rrset, read (addRrsetToShape s rrset) = read s + f rrset) →
      read (shapeAfter summary (later.lookup key) next) =
        read summary - AList.share (fun _ => f) key (later.lookup key) +
        AList.share (fun _ => f) key next := by
    intro f read hremove hadd
    cases later.lookup key with
    | none =>
      cases next with
      | none => rfl
      | some rrset => exact hadd summary rrset
    | some old =>
      cases next with
      | none => exact hremove summary old
      | some rrset => exact (hadd _ rrset).trans (congrArg (· + f rrset) (hremove summary old))
  have hmoved : ∀ (f : Rrset → ℕ) (read : ZoneShapeSummary → ℕ),
      (read summary = later.total fun _ => f) →
      (∀ s rrset, read (removeRrsetFromShape s rrset) = read s - f rrset) →
      (∀ s rrset, read (addRrsetToShape s rrset) = read s + f rrset) →
      read (shapeAfter summary (later.lookup key) next) = (later.put key next).total fun _ =>
      f := by
    intro f read hread hremove hadd
    rw [hfield f read hremove hadd, hread, later.total_put_eq]
  have hown : ∀ rrset : Option Rrset, (∀ found, rrset = some found → found.key = key) →
      AList.share (fun _ (rrset : Rrset) => rrset.owner.canonicalKey.length) key rrset =
        AList.share ownerShare key rrset := by
    intro rrset hrrset
    cases rrset with
    | none => rfl
    | some found => exact congrArg (fun key : RrsetKey => key.owner.length) (hrrset found rfl)
  exact
    { rrsetCount := hmoved _ _ h.rrsetCount (fun _ _ => rfl) fun _ _ => rfl
      rdataCount := hmoved _ _ h.rdataCount (fun _ _ => rfl) fun _ _ => rfl
      singles := hmoved _ _ h.singles (fun _ _ => rfl) fun _ _ => rfl
      multis := hmoved _ _ h.multis (fun _ _ => rfl) fun _ _ => rfl
      spilled := hmoved _ _ h.spilled (fun _ _ => rfl) fun _ _ => rfl
      payload := hmoved _ _ h.payload (fun _ _ => rfl) fun _ _ => rfl
      logical := by
        have hsum := h.logical
        have henough := h.enough
        have hle := later.share_le_total ownerShare key
        rw [hfield _ ZoneShapeSummary.nameKeyLogicalBytes (fun _ _ => rfl) fun _ _ => rfl,
          hown _ (hkeys key), hown _ hnext, later.total_put_eq]
        omega
      enough := h.enough
      unique := by
        rw [← h.unique]
        cases later.lookup key <;> cases next <;> rfl }

section Indexes

variable {later : RrsetMap} {key : RrsetKey} {next : Option Rrset}

/-- The changes of an index at some names when the presence of a key changes. -/
def changesAt (names : List NameKey) (key : RrsetKey) (previous next : Option Rrset) :
    List NameClassIndex.Change :=
  if previous.isSome != next.isSome then names.map fun name => (name, key.cls, next.isSome) else []

variable (originKey : NameKey)

theorem ancestorChanges_presenceChange (key : RrsetKey) (previous next : Option Rrset) :
    ancestorChanges originKey (presenceChange key previous next) =
      changesAt (updatedAncestors originKey key.owner) key previous next := by
  unfold presenceChange changesAt
  split <;> simp [ancestorChanges]

/-- A share that the key alone decides does not change while the key stays. -/
theorem total_put_of_present {f : RrsetKey → Rrset → ℕ}
    (h : ∀ old new, later.lookup key = some old → next = some new → f key old = f key new)
    (hsome : (later.lookup key).isSome = next.isSome) :
    (later.put key next).total f = later.total f := by
  have hle := later.share_le_total f key
  rw [later.total_put_eq]
  cases hlook : later.lookup key with
  | none =>
    cases next with
    | none => rfl
    | some new => simp [hlook] at hsome
  | some old =>
    cases next with
    | none => simp [hlook] at hsome
    | some new =>
      rw [hlook, share_some] at hle
      rw [share_some, share_some, ← h old new hlook rfl]
      omega

/-- An index that counts the shares of the RRsets keeps counting them, where what is
visited for a key is the share of its RRset. -/
theorem counts_step {names : List NameKey} {exact : NameKey → Prop}
    {share : NameKey → UInt16 → RrsetKey → Rrset → ℕ}
    (h : ∀ name cls, exact name → index.count name cls = later.total (share name cls))
    (hclass : index.isInOnly = true → (later.lookup key).isSome ≠ next.isSome → key.cls = 1)
    (hbound : ∀ name cls, (later.put key next).total (share name cls) ≤ maxCount)
    (hinexact : (later.lookup key).isSome ≠ next.isSome → ∀ name, ¬ exact name →
      names.count name = 0)
    (hkept : ∀ name cls old new, later.lookup key = some old → next = some new →
      share name cls key old = share name cls key new)
    (hadded : ∀ name cls rrset, exact name → later.lookup key = none → next = some rrset →
      (if key.cls = cls then names.count name else 0) = share name cls key rrset)
    (hremoved : ∀ name cls old, exact name → later.lookup key = some old → next = none →
      later.total (share name cls) - (if key.cls = cls then names.count name else 0) =
        later.total (share name cls) - share name cls key old) (name : NameKey) (cls : UInt16) :
    (exact name → (index.applyAll (changesAt names key (later.lookup key) next)).count name cls =
        (later.put key next).total (share name cls)) ∧ (¬ exact name →
        (index.applyAll (changesAt names key (later.lookup key) next)).count name cls =
          index.count name cls) := by
  by_cases hsame : (later.lookup key).isSome = next.isSome
  · have hnone : changesAt names key (later.lookup key) next = [] := by simp [changesAt, hsame]
    rw [hnone]
    refine ⟨fun hexact => ?_, fun _ => rfl⟩
    rw [total_put_of_present (hkept name cls) hsame]
    exact h name cls hexact
  · have hchanges : changesAt names key (later.lookup key) next =
        names.map fun name => (name, key.cls, next.isSome) := by simp [changesAt, hsame]
    have htotal := fun wanted wantedClass => later.total_put_eq (share wanted wantedClass) key next
    have hcount :=
      index.count_applyAll_map names key.cls next.isSome (fun hmode => hclass hmode hsame)
      (fun hpresent wanted hne => ?_) name cls
    · rw [hchanges, hcount]
      refine ⟨fun hexact => ?_, fun hexact => by simp [hinexact hsame name hexact]⟩
      rw [h name cls hexact, htotal]
      cases hlook : later.lookup key with
      | none =>
        cases next with
        | none => simp [hlook] at hsame
        | some rrset => exact congrArg (_ + ·) (hadded name cls rrset hexact hlook rfl)
      | some old =>
        cases next with
        | none => exact hremoved name cls old hexact hlook rfl
        | some rrset => simp [hlook] at hsame
    · have hexact : exact wanted :=
        Classical.byContradiction fun hnot => hne (hinexact hsame wanted hnot)
      obtain ⟨rrset, rfl⟩ := isSome_iff_exists.mp hpresent
      have hfresh : later.lookup key = none := by simpa using hsame
      have hle := hbound wanted key.cls
      rw [htotal, hfresh, share_none, share_some, ← hadded wanted key.cls rrset hexact hfresh rfl,
        if_pos rfl, ← h wanted key.cls hexact] at hle
      exact hle

/-- The names whose count in the empty non-terminal index is exact. -/
def Exact (origin : DomainName) (name : NameKey) : Prop :=
  origin.labels ≠ [] ∨ name ≠ DomainName.root.canonicalKey

/-- What an update visits above an owner is the owner's share of each name. -/
theorem count_updatedAncestors {rrset : Rrset} (hkey : rrset.key = key)
    (hok : rrset.owner.isBelow origin = true ∨ rrset.owner.labelCount ≤ 1) {name : NameKey}
    (hname : Exact origin name) (cls : UInt16) :
    (if key.cls = cls then (updatedAncestors origin.canonicalKey key.owner).count name else 0) =
      ancestorShare origin name cls key rrset := by
  subst hkey
  rw [← ancestorShare_eq, (indexedAncestors_nodup origin rrset.owner).count,
    show rrset.key.owner = rrset.owner.canonicalKey from rfl,
    (updatedAncestors_nodup origin rrset.owner).count]
  simp [mem_updatedAncestors_iff hok hname]

/-- Names outside the zone have no share of any RRset. -/
theorem total_ancestorShare_of_outside (rrsets : RrsetMap) {above : DomainName}
    (h : above.isEqualOrSubdomainOf origin = false) (cls : UInt16) :
    rrsets.total (ancestorShare origin above.canonicalKey cls) = 0 := by
  by_contra hne
  obtain ⟨key, rrset, -, hpos⟩ := (rrsets.total_pos_iff _).mp (Nat.pos_of_ne_zero hne)
  unfold ancestorShare at hpos
  split at hpos
  next hboth =>
    obtain ⟨tail, htail, hsame⟩ := mem_map.mp (indexedAncestors_eq origin rrset.owner ▸ hboth.2)
    obtain ⟨hzone, hsuffix, -⟩ := mem_zoneTails htail
    obtain ⟨other, rfl, hkey⟩ := exists_of_suffix hsuffix
    rw [(canonicalKey_inj _ _).mp (hkey.symm.trans hsame), ← isEqualOrSubdomainOf_iff, h] at hzone
    exact absurd hzone (by decide)
  · exact absurd hpos (lt_irrefl 0)

theorem ancestorCounts_step (hkeys : KeysMatch later) (hnext : ∀ rrset : Rrset, next = some rrset →
      rrset.key = key)
    (h : ∀ name cls, Exact origin name →
      index.count name cls = later.total (ancestorShare origin name cls))
    (hclass : index.isInOnly = true → (later.lookup key).isSome ≠ next.isSome → key.cls = 1)
    (hbound : ∀ name cls, (later.put key next).total (ancestorShare origin name cls) ≤ maxCount)
    (hadditions : ∀ rrset : Rrset, later.lookup key = none → next = some rrset →
      rrset.owner.isBelow origin = true ∨ rrset.owner.labelCount ≤ 1) (name : NameKey)
    (cls : UInt16) : (Exact origin name → (index.applyAll (ancestorChanges origin.canonicalKey
          (presenceChange key (later.lookup key) next))).count name cls =
          (later.put key next).total (ancestorShare origin name cls)) ∧ (¬ Exact origin name →
        (index.applyAll (ancestorChanges origin.canonicalKey
          (presenceChange key (later.lookup key) next))).count name cls =
            index.count name cls) := by
  rw [ancestorChanges_presenceChange]
  refine counts_step h hclass hbound ?_ ?_ ?_ ?_ name cls
  · intro hne wanted hwanted
    obtain ⟨rrset, rfl⟩ : ∃ rrset : Rrset, rrset.key = key := by
      cases hlook : later.lookup key with
      | some old => exact ⟨old, hkeys key old hlook⟩
      | none =>
        obtain ⟨rrset, hrrset⟩ := ne_none_iff_exists'.mp (by simpa [hlook] using hne)
        exact ⟨rrset, hnext rrset hrrset⟩
    simp only [Exact, not_or, not_not] at hwanted
    rw [hwanted.2]
    -- the update never visits the root
    refine count_eq_zero.mpr fun h => ?_
    obtain ⟨above, habove, -, hkey⟩ := exists_of_mem_updatedAncestors h
    exact habove ((canonicalKey_inj _ _).mp hkey).symm
  · intro wanted wantedClass old new hold hnew
    have hown : old.owner.canonicalKey = new.owner.canonicalKey :=
      congrArg RrsetKey.owner ((hkeys key old hold).trans (hnext new hnew).symm)
    rw [ancestorShare, ancestorShare, indexedAncestors_eq, indexedAncestors_eq,
      (canonicalKey_inj _ _).mp hown]
  · intro wanted wantedClass rrset hwanted hfresh hrrset
    exact count_updatedAncestors (hnext rrset hrrset) (hadditions rrset hfresh hrrset)
      hwanted wantedClass
  · intro wanted wantedClass old hwanted hold _
    have hkey := hkeys key old hold
    cases hbelow : old.owner.isBelow origin with
    | true => rw [count_updatedAncestors hkey (Or.inl hbelow) hwanted]
    | false =>
      rw [← ancestorShare_eq, indexedAncestors_of_not_below hbelow]
      by_cases hmem : wanted ∈ updatedAncestors origin.canonicalKey key.owner
      · rw [← hkey] at hmem
        obtain ⟨above, hne, hsuffix, rfl⟩ := exists_of_mem_updatedAncestors hmem
        have houtside : above.isEqualOrSubdomainOf origin = false := by
          rw [Bool.eq_false_iff, Ne, isBelow_iff] at hbelow
          rw [Bool.eq_false_iff, Ne, isEqualOrSubdomainOf_iff]
          refine fun hzone => hbelow ⟨fun hnil => hne ?_, hzone.trans hsuffix⟩
          simpa [lowerLabels, hnil] using hsuffix
        rw [total_ancestorShare_of_outside later houtside]
        simp
      · simp [count_eq_zero.mpr hmem]

/-- What the special keys add to the bytes of the names. -/
def specialShare (key : RrsetKey) (_ : Rrset) : ℕ :=
  if isDelegationKey originKey key || isDnameKey key then key.owner.length else 0

/-- The special sets are those of a map, and the bytes are moved by them. -/
structure SpecialFor (originKey : NameKey) (start : ℕ) (rrsets later : RrsetMap)
    (indexes : SpecialIndexes) : Prop where
  delegations : ∀ key, key ∈ indexes.delegationRrsets ↔
    (∃ rrset, later.lookup key = some rrset) ∧ isDelegationKey originKey key = true
  dnames : ∀ key, key ∈ indexes.dnameRrsets ↔
    (∃ rrset, later.lookup key = some rrset) ∧ isDnameKey key = true
  bytes : indexes.nameKeyLogicalBytes + rrsets.total (specialShare originKey) =
    start + later.total (specialShare originKey)

theorem exists_lookup_put (wanted : RrsetKey) :
    (∃ rrset, (later.put key next).lookup wanted = some rrset) ↔
      (wanted = key ∧ next.isSome = true) ∨
      (wanted ≠ key ∧ ∃ rrset, later.lookup wanted = some rrset) := by
  rw [lookup_put]
  by_cases hwanted : wanted = key
  · simp [hwanted, isSome_iff_exists]
  · simp [hwanted]

theorem not_both_special (key : RrsetKey) :
    ¬ (isDelegationKey originKey key = true ∧ isDnameKey key = true) := by
  rintro ⟨hdelegation, hdname⟩
  simp only [isDelegationKey, isDnameKey, Bool.and_eq_true, beq_iff_eq] at hdelegation hdname
  rw [hdelegation.1] at hdname
  exact absurd hdname (by decide)

variable {keys : Finset RrsetKey} {p : RrsetKey → Bool}

/-- The members of a set of special keys after one replacement. -/
theorem mem_special_step
    (h : ∀ wanted, wanted ∈ keys ↔ (∃ rrset, later.lookup wanted = some rrset) ∧ p wanted = true)
    (hkey : p key = true) (wanted : RrsetKey) :
    wanted ∈ (if next.isSome then insert key keys else keys.erase key) ↔
      (∃ rrset, (later.put key next).lookup wanted = some rrset) ∧ p wanted = true := by
  rw [exists_lookup_put]
  cases hnext : next.isSome with
  | true =>
    simp only [if_true, Finset.mem_insert, h]
    by_cases hwanted : wanted = key
    · simp [hwanted, hkey]
    · simp [hwanted]
  | false =>
    simp only [Bool.false_eq_true, if_false, Finset.mem_erase, h, and_false, false_or]
    exact and_assoc.symm

/-- A set whose members the replacement does not concern. -/
theorem mem_special_same
    (h : ∀ wanted, wanted ∈ keys ↔ (∃ rrset, later.lookup wanted = some rrset) ∧ p wanted = true)
    (hkey : p key = true → (later.lookup key).isSome = next.isSome) (wanted : RrsetKey) :
    wanted ∈ keys ↔ (∃ rrset, (later.put key next).lookup wanted = some rrset) ∧
      p wanted = true := by
  rw [exists_lookup_put, h]
  by_cases hwanted : wanted = key
  · subst hwanted
    refine and_congr_left fun hp => ?_
    rw [← isSome_iff_exists, hkey hp]
    simp
  · simp [hwanted]

theorem SpecialFor.step {originKey : NameKey} {start : ℕ} {indexes : SpecialIndexes}
    (h : SpecialFor originKey start rrsets later indexes)
    (henough : rrsets.total (specialShare originKey) ≤ start) :
    SpecialFor originKey start rrsets (later.put key next)
      ((specialChange originKey key (later.lookup key) next).foldl specialStep indexes) := by
  have hbytes := h.bytes
  have hle := later.share_le_total (specialShare originKey) key
  have hput := later.total_put_eq (specialShare originKey) key next
  by_cases hsame : (later.lookup key).isSome = next.isSome
  · have hnone : specialChange originKey key (later.lookup key) next = [] := by
      simp [specialChange, hsame]
    rw [hnone]
    refine ⟨mem_special_same h.delegations fun _ => hsame, mem_special_same h.dnames fun _ => hsame,
      ?_⟩
    rw [total_put_of_present (fun _ _ _ _ => rfl) hsame]
    exact hbytes
  · by_cases hspecial : (isDelegationKey originKey key || isDnameKey key) = true
    · have hone : specialChange originKey key (later.lookup key) next =
          [(key, next.isSome, isDelegationKey originKey key)] := by
        simp [specialChange, hsame, hspecial]
      have hmoved : (if next.isSome then indexes.nameKeyLogicalBytes + key.owner.length
          else indexes.nameKeyLogicalBytes - key.owner.length) +
          rrsets.total (specialShare originKey) =
          start + (later.put key next).total (specialShare originKey) := by
        have hshare : ∀ rrset, specialShare originKey key rrset = key.owner.length := by
          intro rrset
          simp [specialShare, hspecial]
        rw [hput]
        cases hlook : later.lookup key with
        | none =>
          cases next with
          | none => simp [hlook] at hsame
          | some new =>
            simp only [isSome_some, if_true, share_none, share_some, hshare]
            omega
        | some old =>
          cases next with
          | none =>
            rw [hlook, share_some, hshare] at hle
            simp only [isSome_none, Bool.false_eq_true, if_false, share_none, share_some, hshare]
            omega
          | some new => simp [hlook] at hsame
      rw [hone, foldl_cons, foldl_nil, specialStep]
      cases hdelegation : isDelegationKey originKey key with
      | true =>
        rw [if_pos rfl]
        refine ⟨mem_special_step h.delegations hdelegation, mem_special_same h.dnames ?_, hmoved⟩
        exact fun hdname => absurd ⟨hdelegation, hdname⟩ (not_both_special originKey key)
      | false =>
        rw [if_neg Bool.false_ne_true]
        have hdname : isDnameKey key = true := by simpa [hdelegation] using hspecial
        refine ⟨mem_special_same h.delegations ?_, mem_special_step h.dnames hdname, hmoved⟩
        exact fun hother => absurd (hdelegation.symm.trans hother) (by decide)
    · have hnone : specialChange originKey key (later.lookup key) next = [] := by
        simp [specialChange, hspecial]
      have hzero : ∀ rrset, AList.share (specialShare originKey) key rrset = 0 := by
        intro rrset
        cases rrset <;> simp [specialShare, hspecial]
      simp only [Bool.or_eq_true, not_or] at hspecial
      rw [hnone]
      refine ⟨mem_special_same h.delegations fun hyes => absurd hyes hspecial.1,
        mem_special_same h.dnames fun hyes => absurd hyes hspecial.2, ?_⟩
      rw [hput, hzero, hzero]
      exact hbytes

end Indexes

/-- What holds while the first loop runs: everything it has counted, and everything
its changes lead to, is that of the RRsets replaced so far. -/
structure CowInvariant (snapshot : ZoneSnapshot platform) (final : RrsetMap)
    (progress : CowProgress) (later : RrsetMap) : Prop where
  between : AList.Between snapshot.rrsets final later
  soa : progress.soaRecordCount = later.total soaShare
  dnssec : progress.dnssecRrsetCount = later.total dnssecShare
  rdata : progress.rdataRecordCount = recordTotal later
  frequencies : AList.CountsAre progress.rdataCountFrequencies fun length =>
    later.total (lengthShare length)
  shape : ShapeCounts snapshot.shapeSummary progress.shapeSummary snapshot.rrsets later
  changeClasses : allIn snapshot.rrsets = true → ∀ change ∈ progress.rrsetPresenceChanges,
    change.2.1 = 1
  names : ∀ name cls, (snapshot.nameClasses.applyAll progress.rrsetPresenceChanges).count name cls =
    later.total (nameShare name cls)
  ancestors : ∀ name cls, Exact snapshot.origin name →
    (snapshot.emptyNonTerminalClasses.applyAll
      (ancestorChanges snapshot.originKey progress.rrsetPresenceChanges)).count name cls =
      later.total (ancestorShare snapshot.origin name cls)
  rootAncestors : ∀ name cls, ¬ Exact snapshot.origin name →
    (snapshot.emptyNonTerminalClasses.applyAll
      (ancestorChanges snapshot.originKey progress.rrsetPresenceChanges)).count name cls =
      snapshot.emptyNonTerminalClasses.count name cls
  special : ∀ start, snapshot.rrsets.total (specialShare snapshot.originKey) ≤ start →
    SpecialFor snapshot.originKey start snapshot.rrsets later
      (progress.specialIndexChanges.foldl specialStep ⟨start, snapshot.delegationRrsets,
      snapshot.dnameRrsets⟩)

theorem ancestorChanges_append (originKey : NameKey) (first second : List NameClassIndex.Change) :
    ancestorChanges originKey (first ++ second) = ancestorChanges originKey first ++
      ancestorChanges originKey second :=
  flatMap_append

theorem ancestorChanges_classes {originKey : NameKey} {changes : List NameClassIndex.Change}
    {cls : UInt16} (h : ∀ change ∈ changes, change.2.1 = cls) :
    ∀ change ∈ ancestorChanges originKey changes, change.2.1 = cls := by
  intro change hchange
  obtain ⟨source, hsource, hmem⟩ := mem_flatMap.mp hchange
  obtain ⟨name, -, rfl⟩ := mem_map.mp hmem
  exact h source hsource

theorem presenceChange_class {previous next : Option Rrset} :
    ∀ change ∈ presenceChange key previous next, change.2.1 = key.cls := by
  intro change hchange
  unfold presenceChange at hchange
  split at hchange
  · rw [mem_singleton.mp hchange]
  · exact absurd hchange not_mem_nil

variable {final : RrsetMap}

theorem cls_between (hbetween : AList.Between rrsets final later)
    (hkeys : KeysMatch later) (hrrsets : allIn rrsets = true) (hfinal : allIn final = true)
    {rrset : Rrset} (hlook : later.lookup key = some rrset) : key.cls = 1 := by
  rw [cls_of_lookup hkeys hlook]
  rcases hbetween key with hsame | hsame
  · exact (allIn_iff rrsets).mp hrrsets key rrset (hsame ▸ hlook)
  · exact (allIn_iff final).mp hfinal key rrset (hsame ▸ hlook)

/-- A share of at most one stays below the largest count on the way. -/
theorem total_le_maxCount (hbetween : AList.Between rrsets final later)
    (hcounts : rrsets.keys.length + final.keys.length ≤ maxCount) {f : RrsetKey → Rrset → ℕ}
    (hone : ∀ key rrset, f key rrset ≤ 1) : later.total f ≤ maxCount := by
  have hle := later.total_le_add rrsets final f hbetween
  have hfirst := total_le_length rrsets hone
  have hsecond := total_le_length final hone
  omega

theorem rrsetPresenceChanges_cowStep (originKey : NameKey) (progress : CowProgress) (key : RrsetKey)
    (previous next : Option Rrset) :
    (cowStep originKey progress (key, next) previous).rrsetPresenceChanges =
      progress.rrsetPresenceChanges ++ presenceChange key previous next := rfl

theorem CowInvariant.step {snapshot : ZoneSnapshot platform} {progress : CowProgress}
    {change : Replacement} (hconsistent : snapshot.Consistent) (hkeyed : WellKeyed replacements)
    (hfits : UpdateFits snapshot.origin snapshot.rrsets replacements)
    (hchange : change ∈ replacements)
    (h : CowInvariant snapshot (snapshot.rrsets.putAll replacements) progress later) :
    CowInvariant snapshot (snapshot.rrsets.putAll replacements)
      (cowStep snapshot.originKey progress change (later.lookup change.1))
        (later.put change.1 change.2) := by
  obtain ⟨key, next⟩ := change
  have hfinal : (snapshot.rrsets.putAll replacements).lookup key = next :=
    lookup_putAll_of_mem _ hkeyed.distinct hchange
  have hbetween : AList.Between snapshot.rrsets (snapshot.rrsets.putAll replacements)
      (later.put key next) :=
    h.between.put hfinal
  have hfinalKeys := keysMatch_putAll hconsistent.keysMatch hkeyed.matching
  have hkeys := keysMatch_between h.between hconsistent.keysMatch hfinalKeys
  have hputKeys := keysMatch_between hbetween hconsistent.keysMatch hfinalKeys
  have hnext : ∀ rrset : Rrset, next = some rrset → rrset.key = key := by
    rintro rrset rfl
    exact hkeyed.matching key rrset hchange
  have hclass : allIn snapshot.rrsets = true → (later.lookup key).isSome ≠ next.isSome →
      key.cls = 1 := by
    intro hall hne
    have hallFinal : allIn (snapshot.rrsets.putAll replacements) = true := hfits.classes.trans hall
    cases hlook : later.lookup key with
    | some old => exact cls_between h.between hkeys hall hallFinal hlook
    | none =>
      cases next with
      | none => simp [hlook] at hne
      | some rrset =>
        exact cls_between hbetween hputKeys hall hallFinal (by rw [lookup_put, if_pos rfl])
  have hadditions : ∀ rrset : Rrset, later.lookup key = none → next = some rrset →
      rrset.owner.isBelow snapshot.origin = true ∨ rrset.owner.labelCount ≤ 1 := by
    rintro rrset hnone rfl
    refine hfits.additions key rrset hchange ?_
    rcases h.between key with hsame | hsame
    · rw [← hsame, hnone]
    · rw [hnone, hfinal] at hsame
      cases hsame
  have hnameMode : (snapshot.nameClasses.applyAll progress.rrsetPresenceChanges).isInOnly =
      allIn snapshot.rrsets := by
    rw [snapshot.nameClasses.isInOnly_applyAll, hconsistent.nameMode]
    exact fun hmode => h.changeClasses (hconsistent.nameMode ▸ hmode)
  have hancestorMode : (snapshot.emptyNonTerminalClasses.applyAll
      (ancestorChanges snapshot.originKey progress.rrsetPresenceChanges)).isInOnly =
      allIn snapshot.rrsets := by
    rw [snapshot.emptyNonTerminalClasses.isInOnly_applyAll, hconsistent.ancestorMode]
    exact fun hmode => ancestorChanges_classes (h.changeClasses (hconsistent.ancestorMode ▸ hmode))
  have hancestorStep :=
    ancestorCounts_step hkeys hnext h.ancestors (fun hmode => hclass (hancestorMode ▸ hmode))
    (fun name cls => total_le_maxCount hbetween hfits.counts
    (ancestorShare_le _ name cls)) hadditions
  rw [← hconsistent.originKey_eq] at hancestorStep
  exact
    { between := hbetween
      soa := soaRecordCount_step later key next _ h.soa
      dnssec := dnssecRrsetCount_step later key next _ h.dnssec
      rdata := by
        rw [recordTotal, later.total_put_eq]
        exact congrArg (· - recordsOf (later.lookup key) + recordsOf next) h.rdata
      frequencies := frequencies_step later key next h.frequencies
      shape := h.shape.step hkeys hnext
      changeClasses := fun hall other hother => by
        rcases mem_append.mp hother with hold | hnew
        · exact h.changeClasses hall other hold
        · rw [presenceChange_class other hnew]
          refine hclass hall fun hsame => ?_
          simp [presenceChange, hsame] at hnew
      names := fun name cls => by
        rw [rrsetPresenceChanges_cowStep, NameClassIndex.applyAll_append]
        refine (counts_step (fun name cls (_ : True) => h.names name cls)
          (fun hmode => hclass (hnameMode ▸ hmode))
          (fun name cls => total_le_maxCount hbetween hfits.counts (nameShare_le name cls))
          (fun _ _ hnot => absurd trivial hnot) (fun _ _ _ _ _ _ => rfl)
          (fun name cls rrset _ _ _ => nameShare_eq name cls key rrset) ?_ name cls).1 trivial
        intro name cls old _ _ _
        rw [nameShare_eq name cls key old]
      ancestors := fun name cls hexact => by
        rw [rrsetPresenceChanges_cowStep, ancestorChanges_append, NameClassIndex.applyAll_append]
        exact (hancestorStep name cls).1 hexact
      rootAncestors := fun name cls hexact => by
        rw [rrsetPresenceChanges_cowStep, ancestorChanges_append, NameClassIndex.applyAll_append,
          ← h.rootAncestors name cls hexact]
        exact (hancestorStep name cls).2 hexact
      special := fun start henough => by
        simpa [cowStep, foldl_append] using (h.special start henough).step henough }

end ZoneSnapshot

end BoronDns
