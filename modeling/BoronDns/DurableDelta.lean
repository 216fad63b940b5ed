import BoronDns.CacheRuns

/-!
The durable delta between two snapshots, on its own. Applied to the first snapshot it
gives the RRsets, the serial and the SOA timers of the second, as long as no key is
listed as changed that neither of them has.
-/

namespace BoronDns

open List

namespace ZoneSnapshot

section Built

variable {platform : Platform} {snapshot : ZoneSnapshot platform}

/-- The snapshots that are built from RRsets, or from another snapshot by replacements that match
their keys. -/
inductive Built : ZoneSnapshot platform → Prop
  | active (identity : ℕ) (origin : DomainName) (serial : Option UInt32) (rrsets : List Rrset) :
      Built (ZoneSnapshot.active identity origin serial rrsets)
  | replaced {previous : ZoneSnapshot platform} {replacements : List Replacement}
      (built : Built previous) (keyed : WellKeyed replacements) (identity : ℕ) (serial : UInt32) :
      Built (previous.withCowRrsetReplacements identity serial replacements)

theorem Built.keysMatch (h : Built snapshot) : KeysMatch snapshot.rrsets := by
  induction h with
  | active identity origin serial rrsets => exact lookup_rrsetsByKey_key rrsets
  | replaced _ hkeyed _ _ ih => exact keysMatch_putAll ih hkeyed.matching

theorem Built.soaTimers (h : Built snapshot) :
    snapshot.soaTimers = soaTimersFromRrsets snapshot.originKey snapshot.rrsets := by
  cases h with
  | active => rfl
  | replaced => rfl

/-- The snapshots are of one origin and shard count, and the first is not the parent of the second.
-/
structure Comparable (previous snapshot : ZoneSnapshot platform) : Prop where
  origin : snapshot.originKey = previous.originKey
  shards : snapshot.shardCount = previous.shardCount
  unrelated : snapshot.lineage.parentIdentity ≠ some previous.lineage.identity

/-- The same RRsets, serial and SOA timers. -/
structure SameStored (left right : ZoneSnapshot platform) : Prop where
  rrsets : ∀ key, left.rrsets.lookup key = right.rrsets.lookup key
  serial : left.serial = right.serial
  soaTimers : left.soaTimers = right.soaTimers

end Built

section Delta

variable {platform : Platform} {previous snapshot : ZoneSnapshot platform}

/-- The changes exist when every key that is listed is in one of the snapshots. -/
theorem exists_persistenceChangesFrom {keys : List RrsetKey}
    (hfrom : snapshot.changedRrsetKeysFrom previous = some keys)
    (h : ∀ key ∈ keys, (snapshot.rrsets.lookup key).isSome ∨ (previous.rrsets.lookup key).isSome) :
    ∃ changes, snapshot.persistenceChangesFrom previous = .ok (some changes) := by
  obtain ⟨changes, hchanges⟩ : ∃ changes, keys.mapM (snapshot.persistenceChange previous) =
      .ok changes := by
    refine Outcome.exists_mapM fun key hkey => ?_
    have hone := h key hkey
    unfold persistenceChange
    cases hnew : snapshot.rrsets.lookup key with
    | some rrset => exact ⟨_, rfl⟩
    | none =>
      cases hold : previous.rrsets.lookup key with
      | some old => exact ⟨_, rfl⟩
      | none =>
        rw [hnew, hold] at hone
        exact absurd hone (by simp)
  refine ⟨changes, ?_⟩
  unfold persistenceChangesFrom
  rw [hfrom]
  dsimp only
  rw [hchanges]
  rfl

/-- The keys a call of replacements lists can be read unless one is removed that is not there. -/
theorem exists_changes_withCow_iff {replacements : List Replacement}
    (hkeyed : WellKeyed replacements) (identity : ℕ) (serial : UInt32) :
    (∃ changes,
      (previous.withCowRrsetReplacements identity serial replacements).persistenceChangesFrom
        previous = .ok (some changes)) ↔
      ∀ key, (key, none) ∈ replacements → (previous.rrsets.lookup key).isSome := by
  set snapshot := previous.withCowRrsetReplacements identity serial replacements
  have hfrom : snapshot.changedRrsetKeysFrom previous = some (replacements.map Prod.fst) :=
    if_pos rfl
  have hlook : ∀ change ∈ replacements, snapshot.rrsets.lookup change.1 = change.2 :=
    fun change hchange => AList.lookup_putAll_of_mem _ hkeyed.distinct hchange
  constructor
  · rintro ⟨changes, hchanges⟩ key hremoved
    unfold persistenceChangesFrom at hchanges
    rw [hfrom] at hchanges
    obtain ⟨results, hresults, -⟩ := Outcome.bind_eq_ok_iff.mp hchanges
    obtain ⟨i, hi, hkey⟩ := mem_iff_getElem.mp (mem_map.mpr ⟨(key, none), hremoved, rfl⟩)
    have hone := (Outcome.forall₂_of_mapM hresults).get hi (by
      rwa [← (Outcome.forall₂_of_mapM hresults).length_eq])
    rw [List.get_eq_getElem, hkey, persistenceChange, hlook (key, none) hremoved] at hone
    cases hold : previous.rrsets.lookup key with
    | some old => rfl
    | none =>
      rw [hold] at hone
      cases hone
  · intro hpresent
    refine exists_persistenceChangesFrom hfrom fun key hkey => ?_
    obtain ⟨⟨key, next⟩, hchange, rfl⟩ := mem_map.mp hkey
    cases next with
    | none => exact .inr (hpresent key hchange)
    | some rrset => exact .inl (hlook (key, some rrset) hchange ▸ rfl)

theorem Comparable.exists_changes (h : Comparable previous snapshot) :
    ∃ changes, snapshot.persistenceChangesFrom previous = .ok (some changes) := by
  have hfrom : snapshot.changedRrsetKeysFrom previous =
      some ((previous.rrsets.keys.filter fun key => snapshot.rrsets.lookup key ≠
      previous.rrsets.lookup key) ++
        snapshot.rrsets.keys.filter fun key => (previous.rrsets.lookup key).isNone) := by
    unfold changedRrsetKeysFrom
    rw [if_neg h.unrelated, if_neg (not_or.mpr ⟨not_not.mpr h.origin, not_not.mpr h.shards⟩)]
  refine exists_persistenceChangesFrom hfrom fun key hkey => ?_
  rcases mem_append.mp hkey with hkey | hkey
  · exact .inr (AList.lookup_isSome.mpr (AList.mem_keys.mpr (mem_filter.mp hkey).1))
  · exact .inl (AList.lookup_isSome.mpr (AList.mem_keys.mpr (mem_filter.mp hkey).1))

/-- The changes from the first snapshot to the second exist, and lead to it. -/
def RoundTrips (previous snapshot : ZoneSnapshot platform) (serial : UInt32) (identity : ℕ) :
    Prop :=
  ∃ changes, snapshot.persistenceChangesFrom previous = .ok (some changes) ∧
    SameStored (previous.withPersistenceChanges identity serial changes) snapshot

/-- Changes that exist take the first snapshot to the second. -/
theorem roundTrips_of_changes (hprev : Built previous) (hsnapshot : Built snapshot)
    (hlineage : SoundLineage previous snapshot) (horigin : snapshot.originKey = previous.originKey)
    {serial : UInt32} (hserial : snapshot.serial = some serial) (identity : ℕ)
    (h : ∃ changes, snapshot.persistenceChangesFrom previous = .ok (some changes)) :
    RoundTrips previous snapshot serial identity := by
  obtain ⟨changes, hchanges⟩ := h
  have hbetween := changesBetween_of_persistenceChangesFrom hsnapshot.keysMatch hprev.keysMatch
    hlineage hchanges
  have hlook : ∀ key,
      (previous.withPersistenceChanges identity serial changes).rrsets.lookup key =
      snapshot.rrsets.lookup key := fun key =>
    eq_of_rel_eq (rel_withPersistenceChanges (fun _ => rfl) hbetween
      (fun _ => rel_refl (fun _ => rfl) _) identity serial key)
  refine ⟨changes, hchanges, hlook, hserial.symm, ?_⟩
  rw [hsnapshot.soaTimers, horigin]
  show soaTimersFromRrsets previous.originKey
    (previous.withPersistenceChanges identity serial changes).rrsets = _
  unfold soaTimersFromRrsets
  rw [hlook]

/-- After one call of replacements the delta leads back exactly when only what is there is
removed; between snapshots that are not parent and child it always does. -/
theorem persistenceChanges_roundTrip (hprevious : Built previous) (identity : ℕ) :
    (∀ childIdentity serial replacements, WellKeyed replacements →
      (RoundTrips previous (previous.withCowRrsetReplacements childIdentity serial replacements)
          serial identity ↔
        ∀ key, (key, none) ∈ replacements → (previous.rrsets.lookup key).isSome)) ∧
    ∀ snapshot serial, Built snapshot → Comparable previous snapshot →
      snapshot.serial = some serial → RoundTrips previous snapshot serial identity := by
  refine ⟨fun childIdentity serial replacements hkeyed => ?_,
    fun snapshot serial hsnapshot hcomparable hserial => ?_⟩
  · rw [← exists_changes_withCow_iff hkeyed childIdentity serial]
    refine ⟨fun ⟨changes, hchanges, _⟩ => ⟨changes, hchanges⟩, ?_⟩
    exact roundTrips_of_changes hprevious (hprevious.replaced hkeyed childIdentity serial)
      (fun _ => coversChanges_withCowRrsetReplacements _ _ hkeyed.distinct) rfl rfl identity
  · exact roundTrips_of_changes hprevious hsnapshot
      (fun hparent => absurd hparent hcomparable.unrelated) hcomparable.origin hserial identity
      hcomparable.exists_changes

end Delta

def sampleText : Rrset := ⟨sampleApex, RecordType.txt, 1, 300, [[1, 120]]⟩

theorem wellKeyed_sampleText (next : Option Rrset)
    (h : ∀ rrset, next = some rrset → rrset.key = sampleText.key) :
    WellKeyed [(sampleText.key, next)] := by
  refine ⟨nodup_singleton _, fun key rrset hmem => ?_⟩
  obtain ⟨rfl, hnext⟩ := Prod.mk.inj (mem_singleton.mp hmem)
  exact h rrset hnext.symm

/-- A text is added and taken away again, and the first and the last snapshot are compared. -/
theorem persistenceChanges_roundTrip_sample :
    RoundTrips sampleBefore
        (sampleBefore.withCowRrsetReplacements 1 2 [(sampleText.key, some sampleText)]) 2 7 ∧
      RoundTrips sampleBefore ((sampleBefore.withCowRrsetReplacements 1 2
        [(sampleText.key, some sampleText)]).withCowRrsetReplacements 2 3 [(sampleText.key, none)])
          3 7 := by
  have hbefore : Built sampleBefore := .active _ _ _ _
  have hkeyed : WellKeyed [(sampleText.key, some sampleText)] :=
    wellKeyed_sampleText _ fun rrset heq => by rw [Option.some.inj heq]
  have hremoved : WellKeyed [(sampleText.key, none)] :=
    wellKeyed_sampleText _ fun rrset heq => absurd heq (by simp)
  obtain ⟨hchild, hother⟩ := persistenceChanges_roundTrip hbefore 7
  refine ⟨(hchild 1 2 _ hkeyed).mpr fun key hmem => absurd hmem (by simp), ?_⟩
  refine hother _ _ ((hbefore.replaced hkeyed 1 2).replaced hremoved 2 3) ⟨rfl, rfl, ?_⟩ rfl
  decide

/-- A chain that adds a text and takes it away again. -/
def passingAnswers : List ResourceRecord :=
  [sampleSoa 3, sampleSoa 1, sampleSoa 2] ++ sampleText.records ++ [sampleSoa 2] ++
    sampleText.records ++ [sampleSoa 3, sampleSoa 3]

def passingTransfer : Except IxfrError (IxfrResponse ZoneSnapshot.plainPlatform) :=
  parseIxfrResponse 1 0 sampleApex 1 sampleBefore [responseWire RecordType.ixfr passingAnswers]

def stops {ε α : Type} : Outcome ε α → Bool
  | .stopped => true
  | _ => false

theorem eq_stopped_of_stops {ε α : Type} {outcome : Outcome ε α} (h : stops outcome = true) :
    outcome = .stopped := by
  unfold stops at h
  split at h
  · rfl
  · cases h

/-- The program stops on a key that is listed as changed and that neither snapshot has: after a
removal of what is not there, and after the accepted transfer of a text that came and went. -/
theorem persistenceChangesFrom_stops : WellKeyed [(sampleText.key, none)] ∧
      (sampleBefore.withCowRrsetReplacements 1 2 [(sampleText.key, none)]).persistenceChangesFrom
        sampleBefore = .stopped ∧
      ∃ snapshot, passingTransfer = .ok (.updated snapshot) ∧
      snapshot.persistenceChangesFrom sampleBefore = .stopped := by
  refine ⟨wellKeyed_sampleText _ fun rrset heq => absurd heq (by simp),
    eq_stopped_of_stops (by decide +kernel), ?_⟩
  have hstops : ((updatedOf passingTransfer).map fun snapshot =>
      stops (snapshot.persistenceChangesFrom sampleBefore)) = some true := by decide +kernel
  obtain ⟨snapshot, hsnapshot, hstopped⟩ := Option.map_eq_some_iff.mp hstops
  exact ⟨snapshot, eq_updated_of_updatedOf hsnapshot, eq_stopped_of_stops hstopped⟩

end ZoneSnapshot

end BoronDns
