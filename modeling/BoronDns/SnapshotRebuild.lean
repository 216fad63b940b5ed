import BoronDns.SnapshotUpdate
import Mathlib.Algebra.BigOperators.Group.Finset.Piecewise

/-!
A snapshot that is updated step by step agrees with one that is built from the
RRsets it has reached, as long as every step meets the condition of an update.
Without the condition it does not: an RRset added at the apex of a zone whose
origin has two labels makes the parent of the origin an empty non-terminal.
-/

namespace BoronDns

open List AList

attribute [ext] ZoneShapeSummary

namespace ZoneSnapshot

variable {platform : Platform}

def listedBytes (names : List NameKey) (set : Finset NameKey) : ℕ :=
  (names.map fun name => if name ∈ set then name.length else 0).sum

/-- Sets that differ only on listed names have bytes that differ only there. -/
theorem sum_listed {left right : Finset NameKey} {names : List NameKey} (hnodup : names.Nodup)
    (h : ∀ name, name ∉ names → (name ∈ left ↔ name ∈ right)) :
    (∑ name ∈ right, name.length) + listedBytes names left =
      (∑ name ∈ left, name.length) + listedBytes names right ∧
      listedBytes names left ≤ ∑ name ∈ left, name.length := by
  have hsplit : ∀ set : Finset NameKey, ∑ name ∈ set, name.length =
      listedBytes names set + ∑ name ∈ set \ names.toFinset, name.length := by
    intro set
    rw [listedBytes, ← sum_toFinset _ hnodup, ← Finset.sum_filter, Finset.filter_mem_eq_inter,
      Finset.inter_comm, Finset.sum_inter_add_sum_sdiff]
  have hrest : left \ names.toFinset = right \ names.toFinset := by
    ext name
    simp only [Finset.mem_sdiff, mem_toFinset]
    exact and_congr_left fun hname => h name hname
  rw [hsplit left, hsplit right, hrest]
  omega

theorem foldl_max_le_iff (numbers : List ℕ) (start bound : ℕ) :
    numbers.foldl max start ≤ bound ↔ start ≤ bound ∧ ∀ n ∈ numbers, n ≤ bound := by
  induction numbers generalizing start with
  | nil => simp
  | cons n rest ih => rw [foldl_cons, ih, max_le_iff, forall_mem_cons, and_assoc]

theorem foldl_max_congr {left right : List ℕ} (h : ∀ n, n ∈ left ↔ n ∈ right) :
    left.foldl max 0 = right.foldl max 0 := by
  refine eq_of_forall_ge_iff fun bound => ?_
  rw [foldl_max_le_iff, foldl_max_le_iff]
  simp [h]

theorem sum_special_eq {rrsets : RrsetMap} {keys : Finset RrsetKey} {p : RrsetKey → Bool}
    (h : ∀ key, key ∈ keys ↔ (∃ rrset, rrsets.lookup key = some rrset) ∧ p key = true) :
    ∑ key ∈ keys, key.owner.length = rrsets.total fun key _ => if p key then key.owner.length
      else 0 := by
  have hkeys : keys = rrsets.keys.toFinset.filter fun key => p key = true := by
    ext key
    rw [h, Finset.mem_filter, mem_toFinset, mem_keys_iff_lookup]
  rw [rrsets.total_eq_sum _ rrsets.keys.toFinset fun key rrset hlook =>
    mem_toFinset.mpr (mem_keys_iff_lookup.mpr ⟨rrset, hlook⟩), hkeys, Finset.sum_filter]
  refine Finset.sum_congr rfl fun key hkey => ?_
  obtain ⟨rrset, hlook⟩ := mem_keys_iff_lookup.mp (mem_toFinset.mp hkey)
  rw [hlook, share_some]

theorem total_add (rrsets : RrsetMap) (f g : RrsetKey → Rrset → ℕ) :
    (rrsets.total fun key rrset => f key rrset + g key rrset) = rrsets.total f + rrsets.total g :=
  sum_map_add

section NameBytes

/-- The sets of names and special keys of a snapshot are those of its RRsets. -/
structure Indexed (snapshot : ZoneSnapshot platform) : Prop where
  names : ∀ name cls, snapshot.nameClasses.count name cls = snapshot.rrsets.total
    (nameShare name cls)
  delegations : ∀ key, key ∈ snapshot.delegationRrsets ↔
    (∃ rrset, snapshot.rrsets.lookup key = some rrset) ∧
    isDelegationKey snapshot.originKey key = true
  dnames : ∀ key, key ∈ snapshot.dnameRrsets ↔
    (∃ rrset, snapshot.rrsets.lookup key = some rrset) ∧ isDnameKey key = true

def nameSet (snapshot : ZoneSnapshot platform) : Finset NameKey :=
  snapshot.nameClasses.keys.toFinset

def emptyNonTerminalSet (snapshot : ZoneSnapshot platform) : Finset NameKey :=
  snapshot.emptyNonTerminalClasses.keys.toFinset

theorem sum_keys_eq (index : NameClassIndex) :
    (index.keys.map List.length).sum = ∑ name ∈ index.keys.toFinset, name.length :=
  (sum_toFinset _ index.keys_nodup).symm

variable {snapshot : ZoneSnapshot platform}

theorem computeShapeSummary_logical (h : snapshot.Indexed) :
    snapshot.computeShapeSummary.nameKeyLogicalBytes =
      snapshot.rrsets.total ownerShare + (∑ name ∈ snapshot.nameSet, name.length) +
        (∑ name ∈ snapshot.emptyNonTerminalSet, name.length) +
        snapshot.rrsets.total (specialShare snapshot.originKey) := by
  have howners : ((snapshot.rrsets.keys.map RrsetKey.owner).map List.length).sum =
      snapshot.rrsets.total ownerShare := by
    rw [AList.keys, List.keys, map_map, map_map]
    rfl
  have hspecial : snapshot.rrsets.total (specialShare snapshot.originKey) =
      (snapshot.rrsets.total fun key _ => if isDelegationKey snapshot.originKey key
      then key.owner.length else 0) +
        snapshot.rrsets.total fun key _ => if isDnameKey key then key.owner.length else 0 := by
    rw [← total_add]
    refine snapshot.rrsets.total_congr_on fun key rrset _ => ?_
    have hnot := not_both_special snapshot.originKey key
    unfold specialShare
    cases hdelegation : isDelegationKey snapshot.originKey key with
    | false => simp
    | true =>
      have hdname : isDnameKey key = false := by simpa [hdelegation] using hnot
      simp [hdname]
  rw [hspecial, ← sum_special_eq h.delegations, ← sum_special_eq h.dnames, ← howners]
  unfold computeShapeSummary nameSet emptyNonTerminalSet
  dsimp only
  rw [sum_keys_eq, sum_keys_eq]
  omega

theorem owner_mem_nameSet (h : snapshot.Indexed) {key : RrsetKey}
    {rrset : Rrset} (hlook : snapshot.rrsets.lookup key = some rrset) :
    key.owner ∈ snapshot.nameSet := by
  rw [nameSet, mem_toFinset, NameClassIndex.mem_keys_iff, NameClassIndex.containsName_iff]
  refine ⟨key.cls, ?_⟩
  rw [h.names, total_pos_iff]
  exact ⟨key, rrset, hlook, by simp [nameShare]⟩

theorem computeShapeSummary_unique (h : snapshot.Indexed) :
    snapshot.computeShapeSummary.nameKeyUniqueBytes =
      ∑ name ∈ snapshot.nameSet ∪ snapshot.emptyNonTerminalSet, name.length := by
  have howners : (snapshot.rrsets.keys.map RrsetKey.owner).toFinset ⊆ snapshot.nameSet := by
    intro name hname
    obtain ⟨key, hkey, rfl⟩ := mem_map.mp (mem_toFinset.mp hname)
    obtain ⟨rrset, hlook⟩ := mem_keys_iff_lookup.mp hkey
    exact owner_mem_nameSet h hlook
  have hspecial : ∀ {keys : Finset RrsetKey} {p : RrsetKey → Bool}, (∀ key, key ∈ keys ↔
      (∃ rrset, snapshot.rrsets.lookup key = some rrset) ∧ p key = true) →
      keys.image RrsetKey.owner ⊆ snapshot.nameSet := by
    intro keys p hkeys name hname
    obtain ⟨key, hkey, rfl⟩ := Finset.mem_image.mp hname
    obtain ⟨⟨rrset, hlook⟩, -⟩ := (hkeys key).mp hkey
    exact owner_mem_nameSet h hlook
  have hdelegations := hspecial h.delegations
  have hdnames := hspecial h.dnames
  refine Finset.sum_congr ?_ fun _ _ => rfl
  show _ ∪ snapshot.nameSet ∪ snapshot.emptyNonTerminalSet ∪ _ ∪ _ = _
  rw [Finset.union_eq_right.mpr howners]
  refine Finset.Subset.antisymm ?_ ?_
  · refine Finset.union_subset (Finset.union_subset subset_rfl ?_) ?_
    · exact hdelegations.trans Finset.subset_union_left
    · exact hdnames.trans Finset.subset_union_left
  · exact Finset.subset_union_left.trans Finset.subset_union_left

/-- The loop over the affected names changes the two counts of name bytes only, and
moves them by what the names had and have. -/
theorem foldl_updateNameShapeMembership (names : List NameKey)
    (old new oldEmpty newEmpty : Finset NameKey) (summary : ZoneShapeSummary)
    (hlogical : listedBytes names old + listedBytes names oldEmpty ≤ summary.nameKeyLogicalBytes)
    (hunique : listedBytes names (old ∪ oldEmpty) ≤ summary.nameKeyUniqueBytes) :
    ∃ logical unique,
      names.foldl (fun summary name => updateNameShapeMembership summary name (decide (name ∈ old))
        (decide (name ∈ new)) (decide (name ∈ oldEmpty)) (decide (name ∈ newEmpty))) summary =
        { summary with nameKeyLogicalBytes := logical, nameKeyUniqueBytes := unique } ∧
      logical + (listedBytes names old + listedBytes names oldEmpty) =
        summary.nameKeyLogicalBytes + (listedBytes names new + listedBytes names newEmpty) ∧
      unique + listedBytes names (old ∪ oldEmpty) =
        summary.nameKeyUniqueBytes + listedBytes names (new ∪ newEmpty) := by
  induction names generalizing summary with
  | nil => exact ⟨_, _, rfl, rfl, rfl⟩
  | cons name rest ih =>
    simp only [listedBytes, map_cons, sum_cons, Finset.mem_union] at hlogical hunique ih ⊢
    set next := updateNameShapeMembership summary name (decide (name ∈ old)) (decide (name ∈ new))
      (decide (name ∈ oldEmpty)) (decide (name ∈ newEmpty)) with hnext
    have hmoved : next.nameKeyLogicalBytes +
          ((if name ∈ old then name.length else 0) + if name ∈ oldEmpty then name.length else 0) =
        summary.nameKeyLogicalBytes +
          ((if name ∈ new then name.length else 0) + if name ∈ newEmpty then name.length else 0) ∧
      next.nameKeyUniqueBytes + (if name ∈ old ∨ name ∈ oldEmpty then name.length else 0) =
        summary.nameKeyUniqueBytes + if name ∈ new ∨ name ∈ newEmpty then name.length else 0 := by
      rw [hnext, updateNameShapeMembership]
      by_cases hold : name ∈ old <;> by_cases hempty : name ∈
        oldEmpty <;> by_cases hnew : name ∈ new <;>
        by_cases hnewEmpty : name ∈ newEmpty <;> simp [hold, hempty, hnew,
        hnewEmpty] at hlogical hunique ⊢ <;> omega
    obtain ⟨logical, unique, hfold, hlogicalRest, huniqueRest⟩ := ih next (by omega) (by omega)
    exact ⟨logical, unique, hfold, by omega, by omega⟩

end NameBytes

section Update

variable {snapshot : ZoneSnapshot platform}

theorem Consistent.indexed (h : snapshot.Consistent) : snapshot.Indexed :=
  ⟨h.nameCounts, h.delegations, h.dnames⟩

theorem computeShapeSummary_totals (snapshot : ZoneSnapshot platform) :
    ShapeTotals snapshot.computeShapeSummary snapshot.rrsets := by
  have hrecs : DenialIndexes.recordTotal snapshot.rrsets =
      (snapshot.rrsets.values.map fun rrset => rrset.rdatas.length).sum :=
    total_eq_values fun _ _ _ => rfl
  have hpayload : (snapshot.rrsets.total fun _ rrset => payloadBytes rrset) =
      (snapshot.rrsets.values.map payloadBytes).sum :=
    total_eq_values fun _ _ _ => rfl
  refine ⟨?_, hrecs.symm, ?_, ?_, ?_, hpayload.symm⟩
  · simp [computeShapeSummary, AList.total]
  · exact (total_eq_countP fun _ _ _ => by simp).symm
  · exact (total_eq_countP fun _ _ _ => by simp).symm
  · exact (total_eq_countP fun _ _ _ => rfl).symm

/-- The first loop starts from what the snapshot holds. -/
theorem CowInvariant.start (h : snapshot.Consistent) (final : RrsetMap) :
    CowInvariant snapshot final (snapshot.cowProgress []) snapshot.rrsets where
  between := fun _ => Or.inl rfl
  soa := h.soaRecordCount_eq
  dnssec := h.dnssecRrsetCount_eq
  rdata := h.rdataRecordCount_eq
  frequencies := h.frequencies
  shape := by
    have hlogical := computeShapeSummary_logical h.indexed
    have htotals := snapshot.computeShapeSummary_totals
    rw [← h.shape_eq] at hlogical htotals
    exact ⟨htotals, rfl, by omega, rfl⟩
  changeClasses := fun _ _ hchange => absurd hchange not_mem_nil
  names := h.nameCounts
  ancestors := h.ancestorCounts
  rootAncestors := fun _ _ _ => rfl
  special := fun _ _ => ⟨h.delegations, h.dnames, rfl⟩

variable {replacements : List Replacement}

theorem cowProgress_invariant (h : snapshot.Consistent) (hkeyed : WellKeyed replacements)
    (hfits : UpdateFits snapshot.origin snapshot.rrsets replacements) :
    CowInvariant snapshot (snapshot.rrsets.putAll replacements) (snapshot.cowProgress replacements)
      (snapshot.rrsets.putAll replacements) :=
  foldl_putAll_invariant (P := CowInvariant snapshot (snapshot.rrsets.putAll replacements))
    hkeyed.distinct (fun _ _ _ hchange hprogress => hprogress.step h hkeyed hfits hchange)
    (CowInvariant.start h _)

variable {changes : List NameClassIndex.Change}

theorem notMem_affectedNames {originKey name : NameKey}
    (h : name ∉ affectedNames originKey changes) :
    name ∉ changes.map Prod.fst ∧ name ∉ (ancestorChanges originKey changes).map Prod.fst := by
  rw [affectedNames, mem_dedup, mem_flatMap] at h
  refine ⟨fun hmem => ?_, fun hmem => ?_⟩
  · obtain ⟨change, hchange, rfl⟩ := mem_map.mp hmem
    exact h ⟨change, hchange, mem_cons_self ..⟩
  · obtain ⟨above, habove, rfl⟩ := mem_map.mp hmem
    obtain ⟨change, hchange, hmem⟩ := mem_flatMap.mp habove
    obtain ⟨name, hname, rfl⟩ := mem_map.mp hmem
    exact h ⟨change, hchange, mem_cons_of_mem _ hname⟩

theorem containsName_applyAll_of_notMem {index : NameClassIndex}
    (hclass : index.isInOnly = true → ∀ change ∈ changes, change.2.1 = 1) {name : NameKey}
    (h : name ∉ changes.map Prod.fst) :
    (index.applyAll changes).containsName name = index.containsName name := by
  rw [Bool.eq_iff_iff, NameClassIndex.containsName_iff, NameClassIndex.containsName_iff]
  simp [index.count_applyAll_of_notMem changes hclass h]

/-- In the root zone the root is above every other name. -/
theorem total_rootShare_pos_iff (rrsets : RrsetMap) (cls : UInt16) :
    0 < rrsets.total (ancestorShare DomainName.root DomainName.root.canonicalKey cls) ↔
      HasNameBelowRoot rrsets cls := by
  rw [total_pos_iff]
  refine exists_congr fun key => exists_congr fun rrset => and_congr_right fun _ => ?_
  simp only [ancestorShare, DomainName.root_mem_indexedAncestors_iff]
  split <;> simp_all

/-- The summary after the loop over the affected names. -/
def namedSummary (snapshot : ZoneSnapshot platform) (replacements : List Replacement) :
    ZoneShapeSummary :=
  let progress := snapshot.cowProgress replacements
  let changes := progress.rrsetPresenceChanges
  (affectedNames snapshot.originKey changes).foldl
    (fun summary name => updateNameShapeMembership summary name
      (snapshot.nameClasses.containsName name)
      ((snapshot.nameClasses.applyAll changes).containsName name)
      (snapshot.emptyNonTerminalClasses.containsName name)
      ((snapshot.emptyNonTerminalClasses.applyAll
      (ancestorChanges snapshot.originKey changes)).containsName name))
    progress.shapeSummary

theorem namedSummary_eq (h : snapshot.Consistent) (hkeyed : WellKeyed replacements)
    (hfits : UpdateFits snapshot.origin snapshot.rrsets replacements)
    {names empties : NameClassIndex}
    (hnames : names = snapshot.nameClasses.applyAll
      (snapshot.cowProgress replacements).rrsetPresenceChanges)
    (hempties : empties = snapshot.emptyNonTerminalClasses.applyAll
      (ancestorChanges snapshot.originKey
      (snapshot.cowProgress replacements).rrsetPresenceChanges)) :
    snapshot.namedSummary replacements =
      { (snapshot.cowProgress replacements).shapeSummary with
        nameKeyLogicalBytes := (snapshot.rrsets.putAll replacements).total ownerShare +
          (∑ name ∈ names.keys.toFinset, name.length) + (∑ name ∈ empties.keys.toFinset,
            name.length) +
          snapshot.rrsets.total (specialShare snapshot.originKey)
        nameKeyUniqueBytes := ∑ name ∈ names.keys.toFinset ∪ empties.keys.toFinset,
            name.length } := by
  have hprogress := cowProgress_invariant h hkeyed hfits
  set changes := (snapshot.cowProgress replacements).rrsetPresenceChanges
  set affected := affectedNames snapshot.originKey changes
  have hnodup : affected.Nodup := nodup_dedup _
  have hcontains : ∀ index : NameClassIndex, index.containsName = fun name =>
      decide (name ∈ index.keys.toFinset) := by
    intro index
    funext name
    rw [Bool.eq_iff_iff, decide_eq_true_iff, mem_toFinset, index.mem_keys_iff]
  have hmem : ∀ (index : NameClassIndex) (name : NameKey),
      name ∈ index.keys.toFinset ↔ index.containsName name = true := by
    intro index name
    rw [hcontains, decide_eq_true_iff]
  have hsameNames : ∀ name, name ∉ affected →
      (name ∈ snapshot.nameClasses.keys.toFinset ↔ name ∈ names.keys.toFinset) := by
    intro name hname
    rw [hmem, hmem, hnames, containsName_applyAll_of_notMem _ (notMem_affectedNames hname).1]
    exact fun hmode => hprogress.changeClasses (h.nameMode ▸ hmode)
  have hsameEmpties : ∀ name, name ∉ affected →
      (name ∈ snapshot.emptyNonTerminalClasses.keys.toFinset ↔ name ∈ empties.keys.toFinset) := by
    intro name hname
    rw [hmem, hmem, hempties, containsName_applyAll_of_notMem _ (notMem_affectedNames hname).2]
    exact fun hmode => ancestorChanges_classes (hprogress.changeClasses (h.ancestorMode ▸ hmode))
  obtain ⟨hnamesSum, hnamesLe⟩ := sum_listed hnodup hsameNames
  obtain ⟨hemptiesSum, hemptiesLe⟩ := sum_listed hnodup hsameEmpties
  obtain ⟨hunionSum, hunionLe⟩ := @sum_listed
    (snapshot.nameClasses.keys.toFinset ∪ snapshot.emptyNonTerminalClasses.keys.toFinset)
    (names.keys.toFinset ∪ empties.keys.toFinset) affected hnodup fun name hname =>
    by rw [Finset.mem_union, Finset.mem_union, hsameNames name hname, hsameEmpties name hname]
  have hstart := computeShapeSummary_logical h.indexed
  have hstartUnique := computeShapeSummary_unique h.indexed
  rw [← h.shape_eq] at hstart hstartUnique
  unfold nameSet emptyNonTerminalSet at hstart hstartUnique
  have hmoved := hprogress.shape.logical
  have hkept := hprogress.shape.unique
  obtain ⟨logical, unique, hfold, hlogical, hunique⟩ := foldl_updateNameShapeMembership affected
    snapshot.nameClasses.keys.toFinset names.keys.toFinset
    snapshot.emptyNonTerminalClasses.keys.toFinset
    empties.keys.toFinset (snapshot.cowProgress replacements).shapeSummary (by omega) (by omega)
  have hnamed : snapshot.namedSummary replacements =
      { (snapshot.cowProgress replacements).shapeSummary with
        nameKeyLogicalBytes := logical, nameKeyUniqueBytes := unique } := by
    rw [← hfold, namedSummary]
    simp only [hcontains, hnames, hempties]
    rfl
  have hlogicalEq : logical = (snapshot.rrsets.putAll replacements).total ownerShare +
      (∑ name ∈ names.keys.toFinset, name.length) + (∑ name ∈ empties.keys.toFinset, name.length) +
      snapshot.rrsets.total (specialShare snapshot.originKey) := by omega
  have huniqueEq : unique = ∑ name ∈ names.keys.toFinset ∪ empties.keys.toFinset, name.length := by
    omega
  rw [hnamed, hlogicalEq, huniqueEq]

section

variable {snapshot : ZoneSnapshot platform} {replacements : List Replacement}

theorem special_withCowRrsetReplacements (h : snapshot.Consistent) (hkeyed : WellKeyed replacements)
    (hfits : UpdateFits snapshot.origin snapshot.rrsets replacements) :
    SpecialFor snapshot.originKey
      (snapshot.namedSummary replacements).nameKeyLogicalBytes snapshot.rrsets
      (snapshot.rrsets.putAll replacements)
        ((snapshot.cowProgress replacements).specialIndexChanges.foldl specialStep
        ⟨(snapshot.namedSummary replacements).nameKeyLogicalBytes, snapshot.delegationRrsets,
          snapshot.dnameRrsets⟩) := by
  refine (cowProgress_invariant h hkeyed hfits).special _ ?_
  rw [namedSummary_eq h hkeyed hfits rfl rfl]
  exact Nat.le_add_left _ _

theorem withCowRrsetReplacements_indexed (h : snapshot.Consistent) (identity : ℕ) (serial : UInt32)
    (hkeyed : WellKeyed replacements)
    (hfits : UpdateFits snapshot.origin snapshot.rrsets replacements) :
    (snapshot.withCowRrsetReplacements identity serial replacements).Indexed :=
  have hspecial := special_withCowRrsetReplacements h hkeyed hfits
  ⟨(cowProgress_invariant h hkeyed hfits).names, hspecial.delegations, hspecial.dnames⟩

/-- The summary that the loops leave is the one computed from the new snapshot. -/
theorem withCowRrsetReplacements_shape (h : snapshot.Consistent) (identity : ℕ) (serial : UInt32)
    (hkeyed : WellKeyed replacements)
    (hfits : UpdateFits snapshot.origin snapshot.rrsets replacements) :
    (snapshot.withCowRrsetReplacements identity serial replacements).shapeSummary =
      (snapshot.withCowRrsetReplacements identity serial replacements).computeShapeSummary := by
  have hprogress := cowProgress_invariant h hkeyed hfits
  have hindexed := withCowRrsetReplacements_indexed h identity serial hkeyed hfits
  have htotals :=
    (snapshot.withCowRrsetReplacements identity serial replacements).computeShapeSummary_totals
  have hnamed := namedSummary_eq h hkeyed hfits rfl rfl
  set final := snapshot.withCowRrsetReplacements identity serial replacements
  have hbytes : final.shapeSummary.nameKeyLogicalBytes + snapshot.rrsets.total
    (specialShare snapshot.originKey) =
      (snapshot.namedSummary replacements).nameKeyLogicalBytes + final.rrsets.total
      (specialShare final.originKey) :=
    (special_withCowRrsetReplacements h hkeyed hfits).bytes
  have hlogicalNamed : (snapshot.namedSummary replacements).nameKeyLogicalBytes =
      final.rrsets.total ownerShare + (∑ name ∈ final.nameSet, name.length) +
        (∑ name ∈ final.emptyNonTerminalSet, name.length) +
        snapshot.rrsets.total (specialShare snapshot.originKey) :=
    congrArg ZoneShapeSummary.nameKeyLogicalBytes hnamed
  have hlogical : final.shapeSummary.nameKeyLogicalBytes =
      final.computeShapeSummary.nameKeyLogicalBytes := by
    rw [computeShapeSummary_logical hindexed]
    omega
  have hunique : final.shapeSummary.nameKeyUniqueBytes =
      final.computeShapeSummary.nameKeyUniqueBytes :=
    (congrArg ZoneShapeSummary.nameKeyUniqueBytes hnamed).trans
      (computeShapeSummary_unique hindexed).symm
  -- the other counts are those of the first loop
  have hkept : ShapeTotals (snapshot.namedSummary replacements) final.rrsets := by
    rw [hnamed]
    exact { hprogress.shape.toShapeTotals with }
  refine ZoneShapeSummary.ext ?_ ?_ ?_ ?_ ?_ ?_ rfl rfl ?_ hlogical hunique ?_ rfl
  · exact hkept.rrsetCount.trans htotals.rrsetCount.symm
  · exact hkept.rdataCount.trans htotals.rdataCount.symm
  · exact hkept.singles.trans htotals.singles.symm
  · exact hkept.multis.trans htotals.multis.symm
  · exact hkept.spilled.trans htotals.spilled.symm
  · refine foldl_max_congr fun length => ?_
    rw [← AList.mem_keys, ← AList.lookup_isSome, hprogress.frequencies length,
      AList.stored_isSome_iff, ← Nat.pos_iff_ne_zero, total_pos_iff, mem_map]
    constructor
    · rintro ⟨key, rrset, hlook, hpos⟩
      refine ⟨rrset, (mem_values _ rrset).mpr ⟨key, hlook⟩, ?_⟩
      unfold lengthShare at hpos
      split at hpos
      · assumption
      · exact absurd hpos (lt_irrefl 0)
    · rintro ⟨rrset, hrrset, rfl⟩
      obtain ⟨key, hlook⟩ := (mem_values _ rrset).mp hrrset
      exact ⟨key, rrset, hlook, by simp [lengthShare]⟩
  · exact hkept.payload.trans htotals.payload.symm
  · exact congrArg₂ (· - ·) hlogical hunique

/-- A consistent snapshot stays consistent under an update that fits. -/
theorem withCowRrsetReplacements_consistent (h : snapshot.Consistent) (identity : ℕ)
    (serial : UInt32) (hkeyed : WellKeyed replacements)
    (hfits : UpdateFits snapshot.origin snapshot.rrsets replacements) :
    (snapshot.withCowRrsetReplacements identity serial replacements).Consistent := by
  have hprogress := cowProgress_invariant h hkeyed hfits
  have hkeys := keysMatch_putAll h.keysMatch hkeyed.matching
  have hindexed := withCowRrsetReplacements_indexed h identity serial hkeyed hfits
  exact
    { originKey_eq := h.originKey_eq
      keysMatch := hkeys
      soaTimers_eq := rfl
      soaRecordCount_eq := hprogress.soa
      dnssecRrsetCount_eq := hprogress.dnssec
      rdataRecordCount_eq := hprogress.rdata
      denial := DenialIndexes.updated_isFor h.denial h.keysMatch hkeys hfits.params
        h.shardCount_pos (DenialIndexes.lookup_of_sharesShard _)
      shardCount_pos := h.shardCount_pos
      frequencies := hprogress.frequencies
      nameCounts := hprogress.names
      nameMode := by
        refine (snapshot.nameClasses.isInOnly_applyAll _ fun hmode => ?_).trans
          (h.nameMode.trans hfits.classes.symm)
        exact hprogress.changeClasses (h.nameMode ▸ hmode)
      ancestorCounts := hprogress.ancestors
      ancestorPresent := fun name cls => by
        by_cases hexact : Exact snapshot.origin name
        · have hsame := hprogress.ancestors name cls hexact
          exact (congrArg (0 < ·) hsame).to_iff
        · have hsame := hprogress.rootAncestors name cls hexact
          have hold := h.ancestorPresent name cls
          simp only [Exact, not_or, not_not] at hexact
          have hroot : snapshot.origin = DomainName.root := DomainName.ext hexact.1
          rw [← hsame, hexact.2, hroot, total_rootShare_pos_iff, ← hfits.rootNames hexact.1] at hold
          show 0 < NameClassIndex.count _ name cls ↔
            0 < AList.total _ (ancestorShare snapshot.origin name cls)
          rw [hexact.2, hroot, total_rootShare_pos_iff]
          exact hold
      ancestorMode := by
        refine (snapshot.emptyNonTerminalClasses.isInOnly_applyAll _ fun hmode => ?_).trans
          (h.ancestorMode.trans hfits.classes.symm)
        exact ancestorChanges_classes (hprogress.changeClasses (h.ancestorMode ▸ hmode))
      delegations := hindexed.delegations
      dnames := hindexed.dnames
      shape_eq := withCowRrsetReplacements_shape h identity serial hkeyed hfits }

end

end Update

section Runs

/-- One call of `with_cow_rrset_replacements`, with the identity it allocates. -/
structure CowCall where
  identity : ℕ
  serial : UInt32
  replacements : List Replacement

def call (snapshot : ZoneSnapshot platform) (c : CowCall) : ZoneSnapshot platform :=
  snapshot.withCowRrsetReplacements c.identity c.serial c.replacements

def run (snapshot : ZoneSnapshot platform) (calls : List CowCall) : ZoneSnapshot platform :=
  calls.foldl call snapshot

/-- Every call of the run fits the RRsets it finds. -/
def RunFits (snapshot : ZoneSnapshot platform) : List CowCall → Prop
  | [] => True
  | c :: rest =>
    UpdateFits snapshot.origin snapshot.rrsets c.replacements ∧ RunFits (snapshot.call c) rest

/-- The RRsets are few enough for the counts of the snapshot. -/
structure Fits (origin : DomainName) (rrsets : RrsetMap) : Prop where
  counts : rrsets.keys.length ≤ maxCount
  params : DenialIndexes.ParamsFit origin ∅ rrsets

theorem run_consistent {calls : List CowCall} {snapshot : ZoneSnapshot platform}
    (h : snapshot.Consistent) (hsize : Fits snapshot.origin snapshot.rrsets)
    (hkeyed : ∀ c ∈ calls, WellKeyed c.replacements) (hfits : snapshot.RunFits calls) :
    (snapshot.run calls).Consistent ∧ Fits snapshot.origin (snapshot.run calls).rrsets ∧
      (snapshot.run calls).origin = snapshot.origin := by
  induction calls generalizing snapshot with
  | nil => exact ⟨h, hsize, rfl⟩
  | cons c rest ih =>
    obtain ⟨hfirst, hrest⟩ := hfits
    have hnext := withCowRrsetReplacements_consistent h c.identity c.serial
      (hkeyed c (mem_cons_self ..)) hfirst
    have hsizeNext : Fits snapshot.origin (snapshot.call c).rrsets :=
      ⟨(Nat.le_add_left _ _).trans hfirst.counts, hfirst.params.built fun _ => Or.inr rfl⟩
    exact ih hnext hsizeNext (fun other hother => hkeyed other (mem_cons_of_mem _ hother)) hrest

/-- RRsets with distinct keys are all found under their keys. -/
theorem lookup_rrsetsByKey {rrsets : List Rrset} (h : (rrsets.map Rrset.key).Nodup) (key : RrsetKey)
    (rrset : Rrset) : (rrsetsByKey rrsets).lookup key = some rrset ↔ rrset ∈ rrsets ∧
    rrset.key = key := by
  induction rrsets using List.reverseRecOn with
  | nil => simp [rrsetsByKey]
  | append_singleton front last ih =>
    rw [map_append, nodup_append] at h
    have hlast : ∀ other ∈ front, other.key ≠ last.key := fun other hother =>
      h.2.2 _ (mem_map_of_mem hother) _ (mem_singleton_self _)
    rw [rrsetsByKey, foldl_append, foldl_cons, foldl_nil, ← rrsetsByKey, lookup_insert_ite,
      mem_append, mem_singleton]
    split <;> rename_i hkey
    · constructor
      · intro hsame
        obtain rfl := Option.some.inj hsame
        exact ⟨Or.inr rfl, hkey.symm⟩
      · rintro ⟨hmem | rfl, rfl⟩
        · exact absurd hkey (hlast rrset hmem)
        · rfl
    · rw [ih h.1]
      constructor
      · exact fun hboth => ⟨Or.inl hboth.1, hboth.2⟩
      · rintro ⟨hmem | rfl, hsame⟩
        · exact ⟨hmem, hsame⟩
        · exact absurd hsame.symm hkey

theorem lookup_rrsetsByKey_of_perm {rrsets : RrsetMap} {listed : List Rrset} (h : KeysMatch rrsets)
    (hperm : listed.Perm rrsets.values) (key : RrsetKey) :
    (rrsetsByKey listed).lookup key = rrsets.lookup key := by
  have hdist : (listed.map Rrset.key).Nodup := by
    rw [(hperm.map Rrset.key).nodup_iff]
    exact pairwise_map.mpr (DenialIndexes.values_keys_distinct h)
  refine Option.ext fun rrset => ?_
  rw [lookup_rrsetsByKey hdist, hperm.mem_iff, mem_values]
  constructor
  · rintro ⟨⟨other, hother⟩, rfl⟩
    rw [h other rrset hother]
    exact hother
  · exact fun hlook => ⟨⟨key, hlook⟩, h key rrset hlook⟩

/-- A run of updates that all fit leaves what a snapshot built from the resulting
RRsets, in any order, has. -/
theorem run_agrees_active (identity : ℕ) (origin : DomainName) (serial : Option UInt32)
    (rrsets : List Rrset) (calls : List CowCall) (hkeyed : ∀ c ∈ calls, WellKeyed c.replacements)
    (hsize : Fits origin (rrsetsByKey rrsets))
    (hfits : (active identity origin serial rrsets : ZoneSnapshot platform).RunFits calls)
    (otherIdentity : ℕ) (otherSerial : Option UInt32) (resulting : List Rrset)
    (hresulting : resulting.Perm
      ((active identity origin serial rrsets : ZoneSnapshot platform).run calls).rrsets.values) :
    ((active identity origin serial rrsets : ZoneSnapshot platform).run calls).Agrees
      (active otherIdentity origin otherSerial resulting) := by
  have hstart : (active identity origin serial rrsets : ZoneSnapshot platform).Consistent :=
    active_consistent identity origin serial rrsets hsize.counts hsize.params
  obtain ⟨hconsistent, hfinal, horigin⟩ := run_consistent hstart hsize hkeyed hfits
  have hlookup := lookup_rrsetsByKey_of_perm hconsistent.keysMatch hresulting
  refine hconsistent.agrees (active_consistent otherIdentity origin otherSerial resulting ?_ ?_)
    horigin fun key => (hlookup key).symm
  · have hlength := ((entries_perm_of_lookup hlookup).map Sigma.fst).length_eq
    exact hlength.trans_le hfinal.counts
  · intro between hbetween entry
    exact hfinal.params between (fun key => hlookup key ▸ hbetween key) entry

/-- All keys have one priority; a class set takes 24 octets. -/
def plainPlatform : Platform := ⟨fun _ => 0, fun _ => 0, fun _ => 0, 24⟩

def exampleCom : DomainName :=
  ⟨[[101, 120, 97, 109, 112, 108, 101], [99, 111, 109]], by decide⟩

def wwwExampleCom : DomainName :=
  ⟨[[119, 119, 119], [101, 120, 97, 109, 112, 108, 101], [99, 111, 109]], by decide⟩

variable (owner : DomainName)

def textRrset : Rrset := ⟨owner, 16, 1, 300, [[1, 120]]⟩

def addText : CowCall := ⟨1, 2, [((textRrset owner).key, some (textRrset owner))]⟩

theorem wellKeyed_addText : WellKeyed (addText owner).replacements := by
  refine ⟨nodup_singleton _, fun key rrset h => ?_⟩
  simp only [addText, mem_singleton, Prod.mk.injEq, Option.some.injEq] at h
  rw [h.1, h.2]

/-- A zone that gains a record below its origin. -/
theorem run_agrees_active_www :
    ((active 0 exampleCom (some 1) [textRrset exampleCom] : ZoneSnapshot plainPlatform).run
        [addText wwwExampleCom]).Agrees
      (active 5 exampleCom (some 2) [textRrset wwwExampleCom, textRrset exampleCom]) := by
  refine run_agrees_active 0 exampleCom (some 1) [textRrset exampleCom]
    [addText wwwExampleCom] ?_ ?_ ?_ 5 (some 2) [textRrset wwwExampleCom, textRrset exampleCom] ?_
  · intro c hc
    rw [mem_singleton.mp hc]
    exact wellKeyed_addText wwwExampleCom
  · exact ⟨by decide +kernel, DenialIndexes.paramsFit_of_recordTotal (by decide +kernel)⟩
  · refine ⟨⟨fun key rrset hmem _ => Or.inl ?_, fun hroot => absurd hroot (by decide),
      by decide +kernel, by decide +kernel,
      DenialIndexes.paramsFit_of_recordTotal (by decide +kernel)⟩, trivial⟩
    simp only [addText, mem_singleton, Prod.mk.injEq, Option.some.injEq] at hmem
    rw [hmem.2]
    decide +kernel
  · decide +kernel

/-- An RRset added at the apex of `example.com.` makes `com.` an empty non-terminal
of the updated snapshot, but not of the one built anew. -/
theorem run_apex_not_agrees_active : (∀ c ∈ [addText exampleCom], WellKeyed c.replacements) ∧
      [textRrset exampleCom].Perm
        ((active 0 exampleCom (some 1) [] : ZoneSnapshot plainPlatform).run
          [addText exampleCom]).rrsets.values ∧
      ¬ ((active 0 exampleCom (some 1) [] : ZoneSnapshot plainPlatform).run
        [addText exampleCom]).Agrees (active 0 exampleCom (some 2) [textRrset exampleCom]) := by
  refine ⟨?_, by decide +kernel, fun hagrees => ?_⟩
  · intro c hc
    rw [mem_singleton.mp hc]
    exact wellKeyed_addText exampleCom
  · have hcom := hagrees.emptyNonTerminals [99, 111, 109, 46] 1
    exact absurd hcom (by decide +kernel)

end Runs

end ZoneSnapshot

end BoronDns
