import BoronDns.CheckpointContent

/-!
The changes between two validated snapshots, and what they do to a snapshot that
mirrors the first of them: the checks of a journal entry accept them, and what they
give mirrors the second.
-/

namespace BoronDns

open List AList Except Outcome ZoneSnapshot RrsetKey

variable {change : PersistenceRrsetChange} {messages : List (List UInt8)}

section Keys

variable {platform : Platform} {zoneApex : DomainName} {qclass : UInt16}
  {previous snapshot : ZoneSnapshot platform}

/-- Outside the keys the snapshots agree. -/
structure CoversChanges (previous snapshot : ZoneSnapshot platform) (keys : List RrsetKey) :
    Prop where
  distinct : keys.Nodup
  unchanged : ∀ key ∉ keys, snapshot.rrsets.lookup key = previous.rrsets.lookup key

/-- A snapshot that names another as its parent lists the keys at which it differs from it. -/
def SoundLineage (previous snapshot : ZoneSnapshot platform) : Prop :=
  snapshot.lineage.parentIdentity = some previous.lineage.identity →
    CoversChanges previous snapshot snapshot.lineage.changedRrsetKeys

theorem coversChanges_withCowRrsetReplacements (identity : ℕ) (serial : UInt32)
    {replacements : List Replacement} (hdist : (replacements.map Prod.fst).Nodup) :
    CoversChanges previous (previous.withCowRrsetReplacements identity serial replacements)
      (replacements.map Prod.fst) :=
  ⟨hdist, fun _ hkey => lookup_putAll_of_notMem _ _ hkey⟩

theorem coversChanges_of_changedRrsetKeysFrom (hlineage : SoundLineage previous snapshot)
    {keys : List RrsetKey} (hkeys : snapshot.changedRrsetKeysFrom previous = some keys) :
    CoversChanges previous snapshot keys := by
  unfold changedRrsetKeysFrom at hkeys
  split at hkeys
  next hparent => exact Option.some.inj hkeys ▸ hlineage hparent
  split at hkeys
  · cases hkeys
  rw [← Option.some.inj hkeys]
  constructor
  · refine List.Nodup.append (previous.rrsets.keys_nodup.filter _)
      (snapshot.rrsets.keys_nodup.filter _) ?_
    intro key hleft hright
    have hmem := lookup_isSome.mpr (mem_keys.mpr (mem_filter.mp hleft).1)
    have hnone := (mem_filter.mp hright).2
    rw [Option.isNone_iff_eq_none] at hnone
    rw [hnone] at hmem
    cases hmem
  · intro key hkey
    rw [mem_append, not_or, mem_filter, mem_filter] at hkey
    by_contra hne
    cases hprev : previous.rrsets.lookup key with
    | some rrset =>
      refine hkey.1 ⟨?_, by simpa using hne⟩
      exact mem_keys.mp (lookup_isSome.mp (by rw [hprev]; rfl))
    | none =>
      refine hkey.2 ⟨?_, by rw [hprev]; rfl⟩
      refine mem_keys.mp (lookup_isSome.mp (Option.isSome_iff_ne_none.mpr fun hnone => hne ?_))
      rw [hnone, hprev]

/-- The lineage of an accepted incremental transfer. -/
theorem soundLineage_of_ixfr {identity : ℕ} {qid : UInt16}
    (hparse : parseIxfrResponse identity qid zoneApex qclass previous messages =
      .ok (.updated snapshot)) :
    SoundLineage previous snapshot := by
  intro hparent
  rcases parseIxfrResponse_updated hparse with ⟨currentSoa, answers, -, happly⟩ | hfull
  · obtain ⟨delta, working, -, -, rfl, -⟩ := applyIxfrIncremental_spec happly
    refine coversChanges_withCowRrsetReplacements _ _ ?_
    rw [map_fst_replacementsOf]
    exact working.nodupKeys
  · -- a full transfer has no parent
    obtain ⟨read, -, hfull⟩ := bind_eq_ok_iff.mp hfull
    obtain ⟨_, -, hfull⟩ := bind_eq_ok_iff.mp hfull
    cases ok.inj hfull
    cases hparent

end Keys

section Changes

variable {platform : Platform} {zoneApex : DomainName} {qclass : UInt16}
  {previous snapshot : ZoneSnapshot platform} {changes : List PersistenceRrsetChange}

/-- The changes lead from the RRsets of one snapshot to those of the other. -/
structure ChangesBetween (previous snapshot : ZoneSnapshot platform)
    (changes : List PersistenceRrsetChange) : Prop where
  covers : CoversChanges previous snapshot (changes.map PersistenceRrsetChange.key)
  replacement : ∀ change ∈ changes, change.replacement = snapshot.rrsets.lookup change.key
  owner : ∀ change ∈ changes, ∃ rrset, rrset.owner = change.owner ∧ rrset.key = change.key ∧
    (snapshot.rrsets.lookup change.key = some rrset ∨
      snapshot.rrsets.lookup change.key = none ∧ previous.rrsets.lookup change.key = some rrset)

theorem persistenceChange_spec (hkeys : KeysMatch snapshot.rrsets)
    (hprev : KeysMatch previous.rrsets) {key : RrsetKey}
    (h : snapshot.persistenceChange previous key = .ok change) :
    change.key = key ∧ change.replacement = snapshot.rrsets.lookup change.key ∧
      ∃ rrset, rrset.owner = change.owner ∧ rrset.key = change.key ∧
      (snapshot.rrsets.lookup change.key = some rrset ∨
      snapshot.rrsets.lookup change.key = none ∧ previous.rrsets.lookup change.key =
        some rrset) := by
  have hkey : ∀ rrset : Rrset, rrset.key = key →
      (⟨rrset.owner.canonicalKey, key.rrType, key.cls⟩ : RrsetKey) = key := by
    rintro rrset rfl
    rfl
  unfold persistenceChange at h
  cases hlook : snapshot.rrsets.lookup key with
  | some rrset =>
    rw [hlook] at h
    obtain rfl := ok.inj h
    have hsame := hkeys key rrset hlook
    rw [PersistenceRrsetChange.key, hkey rrset hsame]
    exact ⟨rfl, hlook.symm, rrset, rfl, hsame, .inl hlook⟩
  | none =>
    rw [hlook] at h
    cases hold : previous.rrsets.lookup key with
    | none =>
      rw [hold] at h
      cases h
    | some old =>
      rw [hold] at h
      obtain rfl := ok.inj h
      have hsame := hprev key old hold
      rw [PersistenceRrsetChange.key, hkey old hsame]
      exact ⟨rfl, hlook.symm, old, rfl, hsame, .inr ⟨hlook, hold⟩⟩

theorem mapM_persistenceChange (hkeys : KeysMatch snapshot.rrsets)
    (hprev : KeysMatch previous.rrsets) {keys : List RrsetKey}
    (h : keys.mapM (snapshot.persistenceChange previous) = .ok changes) :
    changes.map PersistenceRrsetChange.key = keys ∧
      ∀ change ∈ changes, snapshot.persistenceChange previous change.key = .ok change := by
  have hitems := forall₂_of_mapM h
  clear h
  induction hitems with
  | nil => exact ⟨rfl, by simp⟩
  | cons hhead _ ih =>
    obtain ⟨hkey, -⟩ := persistenceChange_spec hkeys hprev hhead
    exact ⟨by rw [map_cons, hkey, ih.1], forall_mem_cons.mpr ⟨hkey.symm ▸ hhead, ih.2⟩⟩

theorem changesBetween_of_persistenceChangesFrom (hkeys : KeysMatch snapshot.rrsets)
    (hprev : KeysMatch previous.rrsets) (hlineage : SoundLineage previous snapshot)
    (h : snapshot.persistenceChangesFrom previous = .ok (some changes)) :
    ChangesBetween previous snapshot changes := by
  unfold persistenceChangesFrom at h
  cases hfrom : snapshot.changedRrsetKeysFrom previous with
  | none =>
    rw [hfrom] at h
    cases h
  | some keys =>
    rw [hfrom] at h
    obtain ⟨found, hfound, h⟩ := bind_eq_ok_iff.mp h
    obtain rfl := Option.some.inj (ok.inj h)
    obtain ⟨hmap, hchanges⟩ := mapM_persistenceChange hkeys hprev hfound
    refine ⟨hmap ▸ coversChanges_of_changedRrsetKeysFrom hlineage hfrom, ?_, ?_⟩
    · exact fun change hchange =>
        (persistenceChange_spec hkeys hprev (hchanges change hchange)).2.1
    · exact fun change hchange =>
        (persistenceChange_spec hkeys hprev (hchanges change hchange)).2.2

theorem ChangesBetween.stored (h : ChangesBetween previous snapshot changes)
    (hsnapshot : Validated zoneApex qclass snapshot)
    (hprev : Validated zoneApex qclass previous) (hchange : change ∈ changes) :
    ∃ rrset, rrset.owner = change.owner ∧ rrset.key = change.key ∧
      StoredRrset zoneApex qclass rrset := by
  obtain ⟨rrset, hown, hkey, hlook⟩ := h.owner change hchange
  obtain ⟨_, -, hcontent⟩ := hsnapshot.content
  obtain ⟨_, -, hbefore⟩ := hprev.content
  refine ⟨rrset, hown, hkey, ?_⟩
  rcases hlook with hlook | ⟨-, hlook⟩
  · exact hcontent.stored _ rrset hlook
  · exact hbefore.stored _ rrset hlook

theorem ChangesBetween.owner_eq (h : ChangesBetween previous snapshot changes)
    (hchange : change ∈ changes) {rrset : Rrset} (hrrset : change.replacement = some rrset) :
    rrset.owner = change.owner := by
  have hlook := (h.replacement change hchange).symm.trans hrrset
  obtain ⟨found, hown, -, hfound | ⟨hnone, -⟩⟩ := h.owner change hchange
  · rw [← hown, Option.some.inj (hlook.symm.trans hfound)]
  · exact absurd (hlook.symm.trans hnone) (by simp)

end Changes

section Replay

variable {platform : Platform} {zoneApex : DomainName} {qclass : UInt16}
  {previous snapshot restored : ZoneSnapshot platform} {changes : List PersistenceRrsetChange}

theorem validatePersistedChange_of_stored {old : Rrset} (hold : StoredRrset zoneApex qclass old)
    (hown : old.owner = change.owner) (hkey : old.key = change.key)
    (hreplacement : ∀ rrset, change.replacement = some rrset → StoredRrset zoneApex qclass rrset ∧
      rrset.key = change.key) :
    validatePersistedChange zoneApex qclass change = .ok () := by
  obtain ⟨rdata, hrdata⟩ := exists_mem_of_ne_nil _ hold.nonempty
  have hscope := (hold.content _ (mem_records.mpr ⟨rdata, hrdata, rfl⟩)).scope
  have htype : old.rrType = change.rrType := congrArg rrType hkey
  have hcls : old.cls = change.cls := congrArg cls hkey
  unfold validateRecordScope at hscope
  rw [hown, htype, hcls] at hscope
  unfold validatePersistedChange
  split at hscope
  · cases hscope
  rename_i hfirst
  split at hscope
  · cases hscope
  rename_i hsecond
  split at hscope
  · cases hscope
  rename_i hthird
  obtain ⟨_, -, hscope⟩ := bind_eq_ok_iff.mp hscope
  split at hscope
  next hzone =>
    rw [if_neg hfirst, if_neg hsecond, if_neg hthird, if_neg (by simp [hzone])]
    cases hnew : change.replacement with
    | none => rfl
    | some rrset =>
      obtain ⟨hstored, hsame⟩ := hreplacement rrset hnew
      have hparts : ¬ (rrset.owner.canonicalKey ≠ change.owner.canonicalKey ∨
          rrset.rrType ≠ change.rrType ∨ rrset.cls ≠ change.cls ∨ rrset.rdatas = []) := by
        rintro (hne | hne | hne | hempty)
        · exact hne (congrArg owner hsame)
        · exact hne (congrArg rrType hsame)
        · exact hne (congrArg cls hsame)
        · exact hstored.nonempty hempty
      dsimp only
      rw [if_neg hparts]
      exact forM_eq_ok fun record hrec => (hstored.content record hrec).scope
  · cases hscope

theorem checkSoleSoaSerial_of_content {serial : UInt32}
    (h : ZoneContent zoneApex qclass restored.rrsets serial)
    (hcount : restored.soaRecordCount = restored.rrsets.total soaShare) :
    checkSoleSoaSerial zoneApex.canonicalKey qclass restored serial = .ok () := by
  obtain ⟨rrset, rdata, hlook, hrdatas, hserial⟩ := h.soa
  rw [apexSoaKey] at hlook
  unfold checkSoleSoaSerial transferRrsetRecordsByKey
  rw [hlook]
  dsimp only
  rw [hrdatas, map_singleton]
  dsimp only
  rw [if_neg (not_not.mpr (hcount.trans h.total_soaShare)), hserial, ok_bind_eq,
    if_neg (not_not.mpr rfl)]

/-- The checks of a journal entry accept changes that lead to a validated snapshot. -/
theorem validatePersistedZoneDelta_of_content {updated : ZoneSnapshot platform}
    {oldSerial newSerial : UInt32} (hold : restored.serial = some oldSerial)
    (hnew : updated.serial = some newSerial)
    (hforward : ¬ (newSerial - oldSerial = 0 ∨ 0x80000000 ≤ newSerial - oldSerial))
    (hchanges : ∀ change ∈ changes, validatePersistedChange zoneApex qclass change = .ok ())
    (h : ZoneContent zoneApex qclass updated.rrsets newSerial)
    (hcount : updated.soaRecordCount = updated.rrsets.total soaShare) :
    validatePersistedZoneDelta zoneApex qclass restored updated changes = .ok () := by
  have hns : ¬ (updated.transferRrsetRecordsByKey ⟨zoneApex.canonicalKey, RecordType.ns,
      qclass⟩).isEmpty = true := by
    obtain ⟨rrset, hlook⟩ := h.ns
    unfold transferRrsetRecordsByKey
    rw [hlook]
    simpa using (h.stored _ rrset hlook).nonempty
  unfold validatePersistedZoneDelta
  rw [hold, hnew]
  simp only
  rw [if_neg hforward, forM_eq_ok hchanges, ok_bind_eq, checkSoleSoaSerial_of_content h hcount,
    ok_bind_eq, if_neg hns]
  refine (validateCnameAndDnameCoexistence_ok_iff _ _).mpr (h.coexist.of_represented
    fun record hrec => ?_)
  obtain ⟨owner, -, hrec⟩ := mem_flatMap.mp hrec
  obtain ⟨rrset, hrrset, hrec⟩ := mem_flatMap.mp hrec
  obtain ⟨entry, hentry, rfl⟩ := mem_map.mp hrrset
  obtain ⟨rdata, hrdata, rfl⟩ := mem_map.mp hrec
  have hlook := mem_lookup_iff.mpr (mem_filter.mp hentry).1
  exact ⟨_, mem_mapRecords.mpr ⟨entry.1, entry.2, hlook, mem_records.mpr ⟨rdata, hrdata, rfl⟩⟩,
    rfl, rfl, fun _ => rfl⟩

/-- A snapshot that passed the checks and holds related RRsets under the same keys. -/
structure Mirrors (rel : Rrset → Rrset → Prop) (zoneApex : DomainName) (qclass : UInt16)
    (restored live : ZoneSnapshot platform) : Prop where
  validated : Validated zoneApex qclass restored
  rrsets : ∀ key, Option.Rel rel (restored.rrsets.lookup key) (live.rrsets.lookup key)
  serial : restored.serial = live.serial

variable {rel : Rrset → Rrset → Prop} {other : DomainName}

theorem Validated.congr_apex (h : Validated zoneApex qclass restored)
    (hapex : zoneApex.canonicalKey = other.canonicalKey) : Validated other qclass restored := by
  obtain ⟨serial, hserial, hcontent⟩ := h.content
  exact ⟨h.origin.trans hapex, h.originKey.trans hapex, h.soaTimers, h.soaRecordCount, serial,
    hserial, hcontent.congr_apex hapex⟩

theorem Mirrors.congr_apex {live : ZoneSnapshot platform}
    (h : Mirrors rel zoneApex qclass restored live)
    (hapex : zoneApex.canonicalKey = other.canonicalKey) : Mirrors rel other qclass restored live :=
  ⟨h.validated.congr_apex hapex, h.rrsets, h.serial⟩

theorem eq_of_rel_eq {a b : Option Rrset} (h : Option.Rel Eq a b) : a = b := by
  cases h with
  | none => rfl
  | some heq => rw [heq]

theorem rel_refl (hrefl : ∀ rrset, rel rrset rrset) (a : Option Rrset) : Option.Rel rel a a := by
  cases a with
  | none => exact .none
  | some rrset => exact .some (hrefl rrset)

theorem sameRrsets_of_rel (hbut : ∀ a b, rel a b → SameButTtl a b) {left right : RrsetMap}
    (h : ∀ key, Option.Rel rel (left.lookup key) (right.lookup key)) : SameRrsets left right := by
  intro key
  have hkey := h key
  generalize left.lookup key = a at hkey ⊢
  generalize right.lookup key = b at hkey ⊢
  cases hkey with
  | none => exact .none
  | some hsame => exact .some (hbut _ _ hsame)

theorem Mirrors.of_both {live other : ZoneSnapshot platform}
    (h : Mirrors SameButSignatureTtl zoneApex qclass restored live)
    (h' : Mirrors SameButSignatureTtl zoneApex qclass other live) :
    Mirrors SameButSignatureTtl zoneApex qclass restored other := by
  refine ⟨h.validated, fun key => ?_, h.serial.trans h'.serial.symm⟩
  have hleft := h.rrsets key
  have hright := h'.rrsets key
  generalize restored.rrsets.lookup key = a at hleft ⊢
  generalize other.rrsets.lookup key = b at hright ⊢
  generalize live.rrsets.lookup key = c at hleft hright
  cases hleft with
  | none =>
    cases hright
    exact .none
  | some hsame =>
    cases hright with
    | some hother => exact .some (hsame.of_both hother)

theorem rel_withPersistenceChanges (hrefl : ∀ rrset, rel rrset rrset)
    (hchanges : ChangesBetween previous snapshot changes)
    (hrel : ∀ key, Option.Rel rel (restored.rrsets.lookup key) (previous.rrsets.lookup key))
    (identity : ℕ) (serial : UInt32) (key : RrsetKey) :
    Option.Rel rel ((restored.withPersistenceChanges identity serial changes).rrsets.lookup key)
      (snapshot.rrsets.lookup key) := by
  have hmap : (changes.map fun change => (change.key, change.replacement)).map Prod.fst =
      changes.map PersistenceRrsetChange.key := by
    rw [map_map]
    rfl
  show Option.Rel rel ((restored.rrsets.putAll _).lookup key) _
  by_cases hkey : key ∈ changes.map PersistenceRrsetChange.key
  · obtain ⟨change, hchange, rfl⟩ := mem_map.mp hkey
    rw [lookup_putAll_of_mem _ (by rw [hmap]; exact hchanges.covers.distinct)
      (mem_map_of_mem (f := fun change => (change.key, change.replacement)) hchange),
      hchanges.replacement change hchange]
    exact rel_refl hrefl _
  · rw [lookup_putAll_of_notMem _ _ (by rw [hmap]; exact hkey), hchanges.covers.unchanged key hkey]
    exact hrel key

/-- An entry with the changes between two snapshots takes a mirror of the one to a mirror of the
other. -/
theorem replayEntry_mirrors (hrefl : ∀ rrset, rel rrset rrset)
    (hbut : ∀ a b, rel a b → SameButTtl a b)
    (hmirrors : Mirrors rel zoneApex qclass restored previous)
    (hprev : Validated zoneApex qclass previous)
    (hsnapshot : Validated zoneApex qclass snapshot)
    (hchanges : ChangesBetween previous snapshot changes)
    {oldSerial newSerial : UInt32} (hold : previous.serial = some oldSerial)
    (hnew : snapshot.serial = some newSerial)
    (hforward : ¬ (newSerial - oldSerial = 0 ∨ 0x80000000 ≤ newSerial - oldSerial))
    (before now : UInt64) :
    ∃ updated, ZonePersistence.replayEntry zoneApex qclass (restored, before)
      ⟨oldSerial, newSerial, now, changes⟩ =
        .ok (updated, now) ∧ Mirrors rel zoneApex qclass updated snapshot := by
  have hserial : restored.serial = some oldSerial := hmirrors.serial.trans hold
  have hrel :=
    rel_withPersistenceChanges hrefl hchanges hmirrors.rrsets
      (restored.lineage.identity + 1) newSerial
  obtain ⟨serial, hvalue, hzone⟩ := hsnapshot.content
  obtain rfl : newSerial = serial := Option.some.inj (hnew.symm.trans hvalue)
  have hcontent : ZoneContent zoneApex qclass
      (restored.withPersistenceChanges (restored.lineage.identity + 1) newSerial changes).rrsets
      newSerial :=
    hzone.congr (sameRrsets_of_rel hbut hrel)
  have hcount : (restored.withPersistenceChanges (restored.lineage.identity + 1) newSerial
      changes).soaRecordCount =
      (restored.withPersistenceChanges (restored.lineage.identity + 1) newSerial
      changes).rrsets.total
        soaShare := by
    refine soaRecordCount_withCowRrsetReplacements hmirrors.validated.soaRecordCount _ _ ?_
    rw [map_map]
    exact hchanges.covers.distinct
  have haccepted : ∀ change ∈ changes, validatePersistedChange zoneApex qclass change = .ok () := by
    intro change hchange
    obtain ⟨old, hown, hkey, hstored⟩ := hchanges.stored hsnapshot hprev hchange
    refine validatePersistedChange_of_stored hstored hown hkey fun rrset hrrset => ?_
    have hlook := (hchanges.replacement change hchange).symm.trans hrrset
    exact ⟨hzone.stored _ rrset hlook, hzone.keysMatch _ rrset hlook⟩
  refine ⟨restored.withPersistenceChanges (restored.lineage.identity + 1) newSerial changes, ?_,
    ⟨hmirrors.validated.origin, hmirrors.validated.originKey, rfl, hcount, newSerial, rfl,
    hcontent⟩, hrel, hnew.symm⟩
  unfold ZonePersistence.replayEntry
  rw [if_neg (not_not.mpr hserial)]
  dsimp only
  rw [validatePersistedZoneDelta_of_content hserial rfl hforward haccepted hcontent hcount]
  rfl

end Replay

end BoronDns
