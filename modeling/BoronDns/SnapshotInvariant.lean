import BoronDns.Snapshot

/-!
What ties the indexes, counts and summary of a snapshot to its RRsets: each is
the sum, or the set, that the RRsets give. In the root zone the count of the root
in the empty non-terminal index is only known to be positive or not. Snapshots
of one origin that are so tied, and that have the same RRsets, agree in
everything that is read from them.
-/

namespace BoronDns

open List AList
open NameClassIndex (count_forRrsets forRrsets isInOnly isInOnly_forRrsets occurrences)

variable {left right : NameClassIndex} {rrsets byKey : RrsetMap} {rrset : Rrset}

namespace ZoneSnapshot

variable {platform : Platform}

def soaShare (key : RrsetKey) (rrset : Rrset) : ℕ :=
  if key.rrType = RecordType.soa then rrset.rdatas.length else 0

def dnssecShare (key : RrsetKey) (_ : Rrset) : ℕ := if isDnssecRrType key.rrType then 1 else 0

def lengthShare (length : ℕ) (_ : RrsetKey) (rrset : Rrset) : ℕ :=
  if rrset.rdatas.length = length then 1 else 0

def nameShare (name : NameKey) (cls : UInt16) (key : RrsetKey) (_ : Rrset) : ℕ :=
  if key.owner = name ∧ key.cls = cls then 1 else 0

def ancestorShare (origin : DomainName) (name : NameKey) (cls : UInt16) (key : RrsetKey)
    (rrset : Rrset) : ℕ :=
  if key.cls = cls ∧ name ∈ indexedAncestors origin rrset.owner then 1 else 0

def allIn (rrsets : RrsetMap) : Bool := rrsets.values.all fun rrset => rrset.cls == 1

structure Consistent (snapshot : ZoneSnapshot platform) : Prop where
  originKey_eq : snapshot.originKey = snapshot.origin.canonicalKey
  keysMatch : KeysMatch snapshot.rrsets
  soaTimers_eq : snapshot.soaTimers = soaTimersFromRrsets snapshot.originKey snapshot.rrsets
  soaRecordCount_eq : snapshot.soaRecordCount = snapshot.rrsets.total soaShare
  dnssecRrsetCount_eq : snapshot.dnssecRrsetCount = snapshot.rrsets.total dnssecShare
  rdataRecordCount_eq : snapshot.rdataRecordCount = DenialIndexes.recordTotal snapshot.rrsets
  denial : snapshot.denialIndexes.IsFor snapshot.rrsets snapshot.origin
  shardCount_pos : 0 < snapshot.shardCount
  frequencies : AList.CountsAre snapshot.rdataCountFrequencies fun length =>
    snapshot.rrsets.total (lengthShare length)
  nameCounts : ∀ name cls, snapshot.nameClasses.count name cls = snapshot.rrsets.total
    (nameShare name cls)
  nameMode : snapshot.nameClasses.isInOnly = allIn snapshot.rrsets
  ancestorCounts : ∀ name cls, snapshot.origin.labels ≠ [] ∨ name ≠ DomainName.root.canonicalKey →
    snapshot.emptyNonTerminalClasses.count name cls = snapshot.rrsets.total
    (ancestorShare snapshot.origin name cls)
  ancestorPresent : ∀ name cls, 0 < snapshot.emptyNonTerminalClasses.count name cls ↔
    0 < snapshot.rrsets.total (ancestorShare snapshot.origin name cls)
  ancestorMode : snapshot.emptyNonTerminalClasses.isInOnly = allIn snapshot.rrsets
  delegations : ∀ key, key ∈ snapshot.delegationRrsets ↔
    (∃ rrset, snapshot.rrsets.lookup key = some rrset) ∧
    isDelegationKey snapshot.originKey key = true
  dnames : ∀ key, key ∈ snapshot.dnameRrsets ↔
    (∃ rrset, snapshot.rrsets.lookup key = some rrset) ∧ isDnameKey key = true
  shape_eq : snapshot.shapeSummary = snapshot.computeShapeSummary

/-- The snapshots have the same RRsets, and everything read from them is the same. -/
structure Agrees (left right : ZoneSnapshot platform) : Prop where
  rrsets : ∀ key, left.rrsets.lookup key = right.rrsets.lookup key
  names : ∀ name qclass, left.nameClasses.contains name qclass =
    right.nameClasses.contains name qclass
  emptyNonTerminals : ∀ name qclass, left.emptyNonTerminalClasses.contains name qclass =
    right.emptyNonTerminalClasses.contains name qclass
  delegations : left.delegationRrsets = right.delegationRrsets
  dnames : left.dnameRrsets = right.dnameRrsets
  soaRecords : left.soaRecordCount = right.soaRecordCount
  dnssecRrsets : left.dnssecRrsetCount = right.dnssecRrsetCount
  rdataRecords : left.rdataRecordCount = right.rdataRecordCount
  timers : left.soaTimers = right.soaTimers
  denial : left.denialIndexes.SameIndexes right.denialIndexes
  shape : left.shapeSummary = right.shapeSummary

theorem keys_perm_of_contains (h : ∀ name, left.containsName name = right.containsName name) :
    left.keys.Perm right.keys := by
  refine (perm_ext_iff_of_nodup left.keys_nodup right.keys_nodup).mpr fun name => ?_
  rw [left.mem_keys_iff, right.mem_keys_iff, h]

theorem contains_congr (h : ∀ name cls, 0 < left.count name cls ↔ 0 < right.count name cls)
    (name : NameKey) (qclass : UInt16) :
    left.contains name qclass = right.contains name qclass := by
  rw [Bool.eq_iff_iff, left.contains_iff, right.contains_iff]
  simp [h]

theorem containsName_congr (h : ∀ name cls, 0 < left.count name cls ↔ 0 < right.count name cls)
    (name : NameKey) : left.containsName name = right.containsName name := by
  rw [Bool.eq_iff_iff, left.containsName_iff, right.containsName_iff]
  simp [h]

theorem valueBytesSaved_congr (hlen : left.len = right.len) (hmode : left.isInOnly = right.isInOnly)
    (setBytes : ℕ) : left.valueBytesSaved setBytes = right.valueBytesSaved setBytes := by
  cases left with
  | inOnly counts =>
    cases right with
    | inOnly others => exact congrArg (· * setBytes) hlen
    | multiClass others => exact absurd hmode (by simp [isInOnly])
  | multiClass counts =>
    cases right with
    | inOnly others => exact absurd hmode (by simp [isInOnly])
    | multiClass others => rfl

/-- The summary is a function of what the snapshots agree in. -/
theorem computeShapeSummary_congr {left right : ZoneSnapshot platform}
    (hrrsets : ∀ key, left.rrsets.lookup key = right.rrsets.lookup key)
    (hnames : ∀ name, left.nameClasses.containsName name = right.nameClasses.containsName name)
    (hancestors : ∀ name, left.emptyNonTerminalClasses.containsName name =
      right.emptyNonTerminalClasses.containsName name)
    (hnameMode : left.nameClasses.isInOnly = right.nameClasses.isInOnly)
    (hancestorMode : left.emptyNonTerminalClasses.isInOnly = right.emptyNonTerminalClasses.isInOnly)
    (hdelegations : left.delegationRrsets = right.delegationRrsets)
    (hdnames : left.dnameRrsets = right.dnameRrsets) :
    left.computeShapeSummary = right.computeShapeSummary := by
  have hentries := entries_perm_of_lookup hrrsets
  have hvalues := values_perm_of_lookup hrrsets
  have hkeys : left.rrsets.keys.Perm right.rrsets.keys := hentries.map Sigma.fst
  have hnameKeys := keys_perm_of_contains hnames
  have hancestorKeys := keys_perm_of_contains hancestors
  have hnameLen : left.nameClasses.len = right.nameClasses.len := by
    rw [left.nameClasses.len_eq, right.nameClasses.len_eq, hnameKeys.length_eq]
  have hancestorLen : left.emptyNonTerminalClasses.len = right.emptyNonTerminalClasses.len := by
    rw [left.emptyNonTerminalClasses.len_eq, right.emptyNonTerminalClasses.len_eq,
      hancestorKeys.length_eq]
  have howners := hkeys.map RrsetKey.owner
  unfold computeShapeSummary
  dsimp only
  rw [hentries.length_eq, (hvalues.map _).sum_eq, (hvalues.map payloadBytes).sum_eq,
    hvalues.countP_eq, hvalues.countP_eq, hvalues.countP_eq, (hvalues.map _).foldl_op_eq, hnameLen,
    hancestorLen, valueBytesSaved_congr hnameLen hnameMode,
    valueBytesSaved_congr hancestorLen hancestorMode,
    (howners.map List.length).sum_eq, (hnameKeys.map List.length).sum_eq,
    (hancestorKeys.map List.length).sum_eq, toFinset_eq_of_perm _ _ howners,
    toFinset_eq_of_perm _ _ hnameKeys, toFinset_eq_of_perm _ _ hancestorKeys, hdelegations, hdnames]

theorem Consistent.agrees {left right : ZoneSnapshot platform} (hleft : left.Consistent)
    (hright : right.Consistent) (horigin : left.origin = right.origin)
    (hrrsets : ∀ key, left.rrsets.lookup key = right.rrsets.lookup key) : left.Agrees right := by
  have horiginKey : left.originKey = right.originKey := by
    rw [hleft.originKey_eq, hright.originKey_eq, horigin]
  have htotal := total_congr hrrsets
  have hallIn : allIn left.rrsets = allIn right.rrsets :=
    (values_perm_of_lookup hrrsets).all_eq
  have hnames : ∀ name cls, 0 < left.nameClasses.count name cls ↔
      0 < right.nameClasses.count name cls := by
    intro name cls
    rw [hleft.nameCounts, hright.nameCounts, htotal]
  have hancestors : ∀ name cls, 0 < left.emptyNonTerminalClasses.count name cls ↔
      0 < right.emptyNonTerminalClasses.count name cls := by
    intro name cls
    rw [hleft.ancestorPresent, hright.ancestorPresent, htotal, horigin]
  have hdelegations : left.delegationRrsets = right.delegationRrsets := by
    ext key
    rw [hleft.delegations, hright.delegations, hrrsets, horiginKey]
  have hdnames : left.dnameRrsets = right.dnameRrsets := by
    ext key
    rw [hleft.dnames, hright.dnames, hrrsets]
  exact
    { rrsets := hrrsets
      names := contains_congr hnames
      emptyNonTerminals := contains_congr hancestors
      delegations := hdelegations
      dnames := hdnames
      soaRecords := by rw [hleft.soaRecordCount_eq, hright.soaRecordCount_eq, htotal]
      dnssecRrsets := by rw [hleft.dnssecRrsetCount_eq, hright.dnssecRrsetCount_eq, htotal]
      rdataRecords := by
        rw [hleft.rdataRecordCount_eq, hright.rdataRecordCount_eq]
        exact htotal _
      timers := by
        rw [hleft.soaTimers_eq, hright.soaTimers_eq, horiginKey, soaTimersFromRrsets,
          soaTimersFromRrsets, hrrsets]
      denial :=
        hleft.denial.agree (horigin ▸ hright.denial) hleft.keysMatch hright.keysMatch hrrsets
      shape := by
        rw [hleft.shape_eq, hright.shape_eq]
        exact computeShapeSummary_congr hrrsets (containsName_congr hnames)
          (containsName_congr hancestors) (by rw [hleft.nameMode, hright.nameMode, hallIn])
          (by rw [hleft.ancestorMode, hright.ancestorMode, hallIn]) hdelegations hdnames }

theorem lookup_rrsetsByKey_key (rrsets : List Rrset) : KeysMatch (rrsetsByKey rrsets) := by
  refine List.foldlRecOn rrsets _ (motive := fun byKey : RrsetMap => KeysMatch byKey) ?_ ?_
  · intro key rrset h
    simp at h
  · exact fun byKey h rrset _ => DenialIndexes.keysMatch_insert h rrset

theorem cls_of_lookup (hkeys : KeysMatch rrsets) {key : RrsetKey}
    (h : rrsets.lookup key = some rrset) : key.cls = rrset.cls := by
  rw [← hkeys key rrset h]
  rfl

theorem type_of_lookup (hkeys : KeysMatch rrsets) {key : RrsetKey}
    (h : rrsets.lookup key = some rrset) : key.rrType = rrset.rrType := by
  rw [← hkeys key rrset h]
  rfl

theorem allIn_iff (rrsets : RrsetMap) :
    allIn rrsets = true ↔ ∀ key rrset, rrsets.lookup key = some rrset → rrset.cls = 1 := by
  rw [allIn, all_eq_true]
  simp only [beq_iff_eq]
  constructor
  · exact fun h key rrset hlook => h rrset ((rrsets.mem_values rrset).mpr ⟨key, hlook⟩)
  · intro h rrset hrrset
    obtain ⟨key, hkey⟩ := (rrsets.mem_values rrset).mp hrrset
    exact h key rrset hkey

/-- A share of at most one never sums to more than the number of RRsets. -/
theorem total_le_length (rrsets : RrsetMap) {f : RrsetKey → Rrset → ℕ}
    (h : ∀ key rrset, f key rrset ≤ 1) : rrsets.total f ≤ rrsets.keys.length := by
  have hone : rrsets.total f ≤ rrsets.total fun _ _ => 1 :=
    rrsets.total_mono fun key rrset _ => h key rrset
  have hlen : (rrsets.total fun _ _ => 1) = rrsets.keys.length := by
    simp [AList.total, AList.keys, List.keys]
  omega

theorem nameShare_le (name : NameKey) (cls : UInt16) (key : RrsetKey) (rrset : Rrset) :
    nameShare name cls key rrset ≤ 1 := by
  unfold nameShare
  split <;> omega

theorem ancestorShare_le (origin : DomainName) (name : NameKey) (cls : UInt16) (key : RrsetKey)
    (rrset : Rrset) : ancestorShare origin name cls key rrset ≤ 1 := by
  unfold ancestorShare
  split <;> omega

theorem frequencies_build (rrsets : RrsetMap) :
    AList.CountsAre (rrsetRdataCountFrequencies rrsets) fun length => rrsets.total
      (lengthShare length) := by
  have hfold : ∀ (values : List Rrset) (frequencies : AList (fun _ : ℕ => ℕ)) (number : ℕ → ℕ),
      AList.CountsAre frequencies number →
      AList.CountsAre (values.foldl (fun frequencies rrset =>
        AList.countUp id frequencies rrset.rdatas.length) frequencies)
        fun length => number length + values.countP fun rrset => rrset.rdatas.length = length := by
    intro values
    induction values with
    | nil => exact fun frequencies number h => h.congr fun _ => rfl
    | cons rrset rest ih =>
      intro frequencies number h
      refine (ih _ _ (countsAre_countUp h rrset.rdatas.length rfl)).congr fun length => ?_
      by_cases hlen : rrset.rdatas.length = length
      · simp [hlen]
        omega
      · simp [hlen, Ne.symm hlen]
  refine (hfold rrsets.values ∅ (fun _ => 0) fun _ => rfl).congr fun length => ?_
  rw [Nat.zero_add, total_eq_countP]
  intro key rrset _
  simp [lengthShare]

/-- The changes that put each RRset under some names. -/
def insertions (byKey : RrsetMap) (names : RrsetKey → Rrset → List NameKey) :
    List NameClassIndex.Change :=
  byKey.entries.flatMap fun entry => (names entry.1 entry.2).map fun name =>
    (name, entry.2.cls, true)

/-- An index built by insertions only counts them. -/
theorem count_build {names : RrsetKey → Rrset → List NameKey}
    {share : NameKey → UInt16 → RrsetKey → Rrset → ℕ}
    (hkeys : KeysMatch byKey) (hcount : byKey.keys.length ≤ maxCount)
    (hshare : ∀ name cls key rrset,
      (if key.cls = cls then (names key rrset).count name else 0) = share name cls key rrset)
    (hone : ∀ name cls key rrset, share name cls key rrset ≤ 1) :
    (∀ name cls, ((forRrsets byKey.values).applyAll (insertions byKey names)).count name cls =
        byKey.total (share name cls)) ∧
      ((forRrsets byKey.values).applyAll (insertions byKey names)).isInOnly = allIn byKey := by
  have hchanges : ∀ change ∈ insertions byKey names,
      change.2.2 = true ∧ ∃ rrset ∈ byKey.values, change.2.1 = rrset.cls := by
    intro change hchange
    obtain ⟨entry, hentry, hmem⟩ := mem_flatMap.mp hchange
    obtain ⟨name, -, rfl⟩ := mem_map.mp hmem
    exact ⟨rfl, entry.2, mem_map_of_mem hentry, rfl⟩
  have hclass : (forRrsets byKey.values).isInOnly = true → ∀ change ∈ insertions byKey names,
      change.2.1 = 1 := by
    intro hmode change hchange
    rw [isInOnly_forRrsets, all_eq_true] at hmode
    obtain ⟨-, rrset, hrrset, hsame⟩ := hchanges change hchange
    rw [hsame]
    simpa using hmode rrset hrrset
  have hoccurrences : ∀ name cls, occurrences (insertions byKey names) name cls =
      byKey.total (share name cls) := by
    intro name cls
    rw [occurrences, insertions, countP_flatMap, AList.total]
    refine congrArg List.sum (map_congr_left fun entry hentry => ?_)
    rw [← hshare, cls_of_lookup hkeys (mem_lookup_iff.mpr hentry)]
    exact NameClassIndex.occurrences_map ..
  refine ⟨fun name cls => ?_, ?_⟩
  · rw [NameClassIndex.count_applyAll _ _ (fun change hchange =>
      (hchanges change hchange).1) hclass, if_pos rfl, count_forRrsets, Nat.zero_add, hoccurrences]
    intro _ wanted wantedClass _
    rw [count_forRrsets, Nat.zero_add, hoccurrences]
    exact (total_le_length byKey (hone wanted wantedClass)).trans hcount
  · rw [NameClassIndex.isInOnly_applyAll _ _ hclass, isInOnly_forRrsets]
    rfl

theorem nameShare_eq (name : NameKey) (cls : UInt16) (key : RrsetKey) (rrset : Rrset) :
    (if key.cls = cls then [key.owner].count name else 0) = nameShare name cls key rrset := by
  simp [nameShare, count_singleton, and_comm, ite_and]

theorem ancestorShare_eq (origin : DomainName) (name : NameKey) (cls : UInt16) (key : RrsetKey)
    (rrset : Rrset) :
    (if key.cls = cls then (indexedAncestors origin rrset.owner).count name else 0) =
      ancestorShare origin name cls key rrset := by
  rw [(DomainName.indexedAncestors_nodup origin rrset.owner).count, ← ite_and]
  rfl

theorem mem_specialKeys {p : (_ : RrsetKey) × Rrset → Bool} {q : RrsetKey → Bool}
    (h : ∀ key rrset, byKey.lookup key = some rrset → (p ⟨key, rrset⟩ = true ↔ q key = true))
    (key : RrsetKey) : key ∈ ((byKey.entries.filter p).map Sigma.fst).toFinset ↔
      (∃ rrset, byKey.lookup key = some rrset) ∧ q key = true := by
  rw [mem_toFinset, mem_map]
  constructor
  · rintro ⟨⟨key, rrset⟩, hentry, rfl⟩
    obtain ⟨hmem, hp⟩ := mem_filter.mp hentry
    have hlook := mem_lookup_iff.mpr hmem
    exact ⟨⟨rrset, hlook⟩, (h key rrset hlook).mp hp⟩
  · rintro ⟨⟨rrset, hlook⟩, hq⟩
    exact ⟨⟨key, rrset⟩, mem_filter.mpr ⟨mem_lookup_iff.mp hlook, (h key rrset hlook).mpr hq⟩,
      rfl⟩

theorem soaRecordCount_active (identity : ℕ) (origin : DomainName) (serial : Option UInt32)
    (rrsets : List Rrset) :
    (active identity origin serial rrsets : ZoneSnapshot platform).soaRecordCount =
      (rrsetsByKey rrsets).total soaShare := by
  refine (total_eq_filter fun key rrset hlook => ?_).symm
  simp [soaShare, type_of_lookup (lookup_rrsetsByKey_key rrsets) hlook]

/-- A snapshot that is built from a list of RRsets is consistent. -/
theorem active_consistent (identity : ℕ) (origin : DomainName) (serial : Option UInt32)
    (rrsets : List Rrset) (hcount : (rrsetsByKey rrsets).keys.length ≤ maxCount)
    (hparams : DenialIndexes.ParamsFit origin ∅ (rrsetsByKey rrsets)) :
    (active identity origin serial rrsets : ZoneSnapshot platform).Consistent := by
  have hkeys := lookup_rrsetsByKey_key rrsets
  obtain ⟨hnameCounts, hnameMode⟩ := count_build hkeys hcount nameShare_eq nameShare_le
  obtain ⟨hancestorCounts, hancestorMode⟩ :=
    count_build hkeys hcount (ancestorShare_eq origin) (ancestorShare_le origin)
  simp only [insertions, map_cons, map_nil, ← map_eq_flatMap] at hnameCounts hnameMode
  exact
    { originKey_eq := rfl
      keysMatch := hkeys
      soaTimers_eq := rfl
      soaRecordCount_eq := soaRecordCount_active identity origin serial rrsets
      dnssecRrsetCount_eq := by
        refine (total_eq_countP fun key rrset hlook => ?_).symm
        simp [dnssecShare, type_of_lookup hkeys hlook]
      rdataRecordCount_eq := by
        have hvalues : DenialIndexes.recordTotal (rrsetsByKey rrsets) =
            ((rrsetsByKey rrsets).values.map fun rrset => rrset.rdatas.length).sum :=
          total_eq_values fun _ _ _ => rfl
        exact hvalues.symm
      denial := DenialIndexes.build_isFor _ hkeys hparams
      shardCount_pos := rrsetShardCount_pos _
      frequencies := frequencies_build _
      nameCounts := hnameCounts
      nameMode := hnameMode
      ancestorCounts := fun name cls _ => hancestorCounts name cls
      ancestorPresent := fun name cls => by
        have hsame := hancestorCounts name cls
        exact (congrArg (0 < ·) hsame).to_iff
      ancestorMode := hancestorMode
      delegations := mem_specialKeys fun key rrset hlook => by
        simp [active, isDelegationKey, type_of_lookup hkeys hlook]
      dnames :=
        mem_specialKeys fun key rrset hlook => by simp [isDnameKey, type_of_lookup hkeys hlook]
      shape_eq := rfl }

end ZoneSnapshot

end BoronDns
