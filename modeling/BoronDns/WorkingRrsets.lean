import BoronDns.GatheredRrsets
import BoronDns.TransferResponse

/-!
The RRsets an incremental transfer is changing. The records of a working RRset are
found through an index by identity, and `swap_remove` keeps the index right. As sets
of records, removing and adding are erasing and inserting, for one RRset and for the
zone.
-/

namespace BoronDns

open List AList
open RecordKey (fromRecord)

variable {record : ResourceRecord} {index : ℕ}

section SwapRemove

variable {α : Type}

theorem getElem?_swapRemove {items : List α} (h : index < items.length) (place : ℕ) :
    (swapRemove items index)[place]? =
      if place + 1 < items.length then if place = index then items[items.length - 1]?
        else items[place]? else none := by
  have hlast : items.length - 1 < items.length := by omega
  have hswap : swapRemove items index = (items.set index items[items.length - 1]).dropLast := by
    rw [swapRemove, List.getLast?_eq_getElem?, List.getElem?_eq_getElem hlast]
  grind

end SwapRemove

namespace WorkingRrset

variable {working : WorkingRrset}

def Indexed (working : WorkingRrset) : Prop :=
  ∀ key place, working.indexes.lookup key = some place ↔
    (working.records[place]?).map fromRecord = some key

variable {records : List ResourceRecord} {key : RecordKey}

theorem mem_versionOf_iff_getElem? :
    key ∈ versionOf records ↔ ∃ place : ℕ, (records[place]?).map fromRecord = some key := by
  simp only [mem_versionOf, mem_iff_getElem?, Option.map_eq_some_iff]
  grind

theorem Indexed.mem_iff (h : working.Indexed) (key : RecordKey) :
    key ∈ versionOf working.records ↔ (working.indexes.lookup key).isSome := by
  rw [mem_versionOf_iff_getElem?, Option.isSome_iff_exists]
  exact exists_congr fun place => (h key place).symm

theorem Indexed.lt_length (h : working.Indexed) {place : ℕ}
    (hplace : working.indexes.lookup key = some place) : place < working.records.length := by
  obtain ⟨record, hrec, -⟩ := Option.map_eq_some_iff.mp ((h _ _).mp hplace)
  exact (List.getElem?_eq_some_iff.mp hrec).1

theorem Indexed.append (h : working.Indexed)
    (hnew : fromRecord record ∉ versionOf working.records) :
    Indexed
      ⟨working.records ++ [record],
        working.indexes.insert (fromRecord record) working.records.length⟩ := by
  intro key place
  have hother : (working.records[place]?).map fromRecord ≠ some (fromRecord record) :=
    fun hplace =>
      hnew ((h.mem_iff _).mpr (Option.isSome_iff_exists.mpr ⟨place, (h _ _).mpr hplace⟩))
  have hkey := h key place
  rw [lookup_insert_ite]
  grind

theorem indexed_fromRecords (h : (records.map fromRecord).Nodup) :
    (fromRecords records).Indexed := by
  induction records using List.reverseRecOn with
  | nil =>
    intro key place
    simp [fromRecords]
  | append_singleton records last ih =>
    rw [map_append, nodup_append] at h
    obtain ⟨hbefore, -, hdisjoint⟩ := h
    have hfold : fromRecords (records ++ [last]) = ⟨records ++ [last],
        (fromRecords records).indexes.insert (fromRecord last) records.length⟩ := by
      simp [fromRecords, zipIdx_append, foldl_append]
    rw [hfold]
    refine (ih hbefore).append fun hmem => ?_
    obtain ⟨record, hrec, hkey⟩ := mem_versionOf.mp hmem
    exact hdisjoint _ (mem_map.mpr ⟨record, hrec, hkey⟩) _ (mem_singleton_self _) rfl

/-- Adding a record keeps the index and inserts the record. -/
theorem Indexed.add (h : working.Indexed) (record : ResourceRecord) : (working.add record).Indexed ∧
      versionOf (working.add record).records = insert (fromRecord record)
        (versionOf working.records) := by
  unfold WorkingRrset.add
  split
  next hknown => exact ⟨h, (Finset.insert_eq_self.mpr ((h.mem_iff _).mpr hknown)).symm⟩
  next hunknown =>
    exact ⟨h.append fun hmem => hunknown ((h.mem_iff _).mp hmem), versionOf_append _ _⟩

theorem mem_of_mem_swapRemove {α : Type} {items : List α} (h : index < items.length) {item : α}
    (hitem : item ∈ swapRemove items index) : item ∈ items := by
  obtain ⟨place, hplace⟩ := mem_iff_getElem?.mp hitem
  rw [getElem?_swapRemove h] at hplace
  split_ifs at hplace
  · exact mem_of_getElem? hplace
  · exact mem_of_getElem? hplace

/-- Removing a record that is there keeps the index and erases the record. -/
theorem Indexed.remove (h : working.Indexed)
    (hmem : fromRecord record ∈ versionOf working.records) :
    ∃ next, working.remove record = some next ∧ next.Indexed ∧
      versionOf next.records = (versionOf working.records).erase (fromRecord record) ∧
      ∀ kept ∈ next.records, kept ∈ working.records := by
  obtain ⟨index, hindex⟩ := Option.isSome_iff_exists.mp ((h.mem_iff _).mp hmem)
  have hbound := h.lt_length hindex
  have hremoved := (h _ _).mp hindex
  obtain ⟨next, hremove, hrecs, hindexed⟩ : ∃ next, working.remove record = some next ∧
      next.records = swapRemove working.records index ∧ next.Indexed := by
    unfold WorkingRrset.remove
    rw [hindex]
    dsimp only
    rw [getElem?_swapRemove hbound, if_pos rfl]
    by_cases hlast : index + 1 < working.records.length
    · rw [if_pos hlast, List.getElem?_eq_getElem (by omega)]
      refine ⟨_, rfl, rfl, fun key place => ?_⟩
      have hplace := h key place
      have hkeyLast := h key (working.records.length - 1)
      have hkeyIndex := h key index
      rw [lookup_insert_ite, lookup_erase_ite, getElem?_swapRemove hbound]
      grind
    · rw [if_neg hlast]
      refine ⟨_, rfl, rfl, fun key place => ?_⟩
      have hplace := h key place
      have hkeyIndex := h key index
      rw [lookup_erase_ite, getElem?_swapRemove hbound]
      grind
  refine ⟨next, hremove, hindexed, ?_, fun kept hkept => mem_of_mem_swapRemove hbound
    (hrecs ▸ hkept)⟩
  ext key
  rw [Finset.mem_erase, mem_versionOf_iff_getElem?, mem_versionOf_iff_getElem?, hrecs]
  simp only [getElem?_swapRemove hbound]
  constructor
  · rintro ⟨place, hplace⟩
    have hkey := h key place
    have hkeyLast := h key (working.records.length - 1)
    grind
  · rintro ⟨hne, place, hplace⟩
    refine ⟨if place + 1 = working.records.length then index else place, ?_⟩
    grind

end WorkingRrset

section Zone

variable {platform : Platform} {currentZone : ZoneSnapshot platform} {start version : ZoneVersion}
  {workingRrsets : WorkingRrsets} {source : ResourceRecord → Prop}

/-- The records that a snapshot gives for its RRsets are the records of the version. -/
structure Serves (snapshot : ZoneSnapshot platform) (version : ZoneVersion)
    (source : ResourceRecord → Prop) : Prop where
  nodup : ∀ key, ((snapshot.transferRrsetRecordsByKey key).map fromRecord).Nodup
  mem_iff : ∀ key record, record ∈ versionOf (snapshot.transferRrsetRecordsByKey key) ↔
    record ∈ version ∧ record.rrsetKey = key
  source : ∀ key, ∀ record ∈ snapshot.transferRrsetRecordsByKey key, source record

variable {snapshot : ZoneSnapshot platform} {key : RrsetKey}

theorem mem_transferRrsetRecordsByKey : record ∈ snapshot.transferRrsetRecordsByKey key ↔
      ∃ rrset, snapshot.rrsets.lookup key = some rrset ∧ ∃ rdata ∈ rrset.rdatas,
        record = ⟨rrset.owner, key.rrType, key.cls,
          snapshot.recordTtlByOwnerKey key.owner key.cls key.rrType rrset.ttl rdata, rdata⟩ := by
  unfold ZoneSnapshot.transferRrsetRecordsByKey
  cases snapshot.rrsets.lookup key with
  | none => simp
  | some rrset => simp [eq_comm]

/-- The records as the snapshot gives them: with the time to live of their RRset, and a
signature with that of the RRset it covers. -/
def servedVersion (snapshot : ZoneSnapshot platform) : ZoneVersion :=
  versionOf (snapshot.rrsets.keys.flatMap snapshot.transferRrsetRecordsByKey)

/-- RRsets without duplicates under their own keys are those of the version they give. -/
theorem serves_servedVersion (hkeys : KeysMatch snapshot.rrsets)
    (hdist : ∀ key rrset, snapshot.rrsets.lookup key = some rrset →
      (rrset.rdatas.map (canonicalRdataIdentity rrset.rrType)).Nodup)
    (hsource : ∀ key, ∀ record ∈ snapshot.transferRrsetRecordsByKey key, source record) :
    Serves snapshot (servedVersion snapshot) source := by
  have hid : ∀ key, ∀ record ∈ snapshot.transferRrsetRecordsByKey key,
      rrsetIdentity record = key := by
    intro key record hrec
    obtain ⟨rrset, hlook, rdata, -, rfl⟩ := mem_transferRrsetRecordsByKey.mp hrec
    rw [← hkeys key rrset hlook]
    rfl
  refine ⟨?_, ?_, hsource⟩
  · intro key
    unfold ZoneSnapshot.transferRrsetRecordsByKey
    cases hlook : snapshot.rrsets.lookup key with
    | none => exact nodup_nil
    | some rrset =>
      obtain rfl := hkeys key rrset hlook
      refine List.Nodup.of_map RecordKey.rdata ?_
      rw [map_map, map_map]
      exact hdist _ rrset hlook
  · intro key wanted
    rw [servedVersion, mem_versionOf, mem_versionOf]
    constructor
    · rintro ⟨record, hrec, rfl⟩
      obtain ⟨rrset, hlook, -⟩ := mem_transferRrsetRecordsByKey.mp hrec
      refine ⟨⟨record, mem_flatMap.mpr ⟨key, mem_keys_iff_lookup.mpr ⟨rrset, hlook⟩, hrec⟩,
        rfl⟩, ?_⟩
      rw [rrsetKey_fromRecord, hid key record hrec]
    · rintro ⟨⟨record, hrec, rfl⟩, hkey⟩
      obtain ⟨other, -, hrec⟩ := mem_flatMap.mp hrec
      rw [rrsetKey_fromRecord, hid other record hrec] at hkey
      exact ⟨record, hkey ▸ hrec, rfl⟩

/-- The touched RRsets hold the records that the version has for them, and the version
differs from the start only there. -/
structure WorkingFor (start version : ZoneVersion) (source : ResourceRecord → Prop)
    (workingRrsets : WorkingRrsets) : Prop where
  indexed : ∀ key working, workingRrsets.lookup key = some working → working.Indexed
  mem_iff : ∀ key working, workingRrsets.lookup key = some working → ∀ record,
    record ∈ versionOf working.records ↔ record ∈ version ∧ record.rrsetKey = key
  untouched : ∀ record : RecordKey, workingRrsets.lookup record.rrsetKey = none →
    (record ∈ version ↔ record ∈ start)
  source : ∀ key working, workingRrsets.lookup key = some working → ∀ record ∈ working.records,
    source record

theorem workingFor_empty : WorkingFor start start source ∅ :=
  ⟨by simp, by simp, fun _ _ => Iff.rfl, by simp⟩

/-- The working RRset of a key, touched before or not. -/
theorem WorkingFor.at (h : WorkingFor start version source workingRrsets)
    (hserves : Serves currentZone start source) (key : RrsetKey) :
    (workingRrset currentZone workingRrsets key).Indexed ∧
      (∀ record, record ∈ versionOf (workingRrset currentZone workingRrsets key).records ↔
        record ∈ version ∧ record.rrsetKey = key) ∧
      ∀ record ∈ (workingRrset currentZone workingRrsets key).records, source record := by
  unfold workingRrset
  cases hlook : workingRrsets.lookup key with
  | some working =>
    exact ⟨h.indexed key working hlook, h.mem_iff key working hlook,
      h.source key working hlook⟩
  | none =>
    refine ⟨WorkingRrset.indexed_fromRecords (hserves.nodup key), ?_, hserves.source key⟩
    intro record
    refine (hserves.mem_iff key record).trans ?_
    constructor
    · rintro ⟨hmem, rfl⟩
      exact ⟨(h.untouched record hlook).mpr hmem, rfl⟩
    · rintro ⟨hmem, rfl⟩
      exact ⟨(h.untouched record hlook).mp hmem, rfl⟩

/-- One working RRset is replaced by one for a version that differs only in its records. -/
theorem WorkingFor.insert (h : WorkingFor start version source workingRrsets) {next : ZoneVersion}
    {working : WorkingRrset} (hindexed : working.Indexed)
    (hmem : ∀ record, record ∈ versionOf working.records ↔ record ∈ next ∧ record.rrsetKey = key)
    (hother : ∀ record : RecordKey, record.rrsetKey ≠ key → (record ∈ next ↔ record ∈ version))
    (hsource : ∀ record ∈ working.records, source record) :
    WorkingFor start next source (workingRrsets.insert key working) := by
  constructor
  · intro wanted found hfound
    rw [lookup_insert_ite] at hfound
    split_ifs at hfound with hkey
    · exact Option.some.inj hfound ▸ hindexed
    · exact h.indexed wanted found hfound
  · intro wanted found hfound record
    rw [lookup_insert_ite] at hfound
    split_ifs at hfound with hkey
    · exact hkey ▸ Option.some.inj hfound ▸ hmem record
    · rw [h.mem_iff wanted found hfound record]
      exact and_congr_left fun hrec => (hother record (hrec ▸ hkey)).symm
  · intro record hnone
    rw [lookup_insert_ite] at hnone
    split_ifs at hnone with hkey
    exact (hother record hkey).trans (h.untouched record hnone)
  · intro wanted found hfound
    rw [lookup_insert_ite] at hfound
    split_ifs at hfound with hkey
    · exact Option.some.inj hfound ▸ hsource
    · exact h.source wanted found hfound

/-- A record of the version can be removed, and then is not in it. -/
theorem WorkingFor.remove (h : WorkingFor start version source workingRrsets)
    (hserves : Serves currentZone start source) (hmem : fromRecord record ∈ version) :
    ∃ working, removeDeltaRecord currentZone workingRrsets record =
        .ok (workingRrsets.insert (rrsetIdentity record) working) ∧
      WorkingFor start (version.erase (fromRecord record)) source
        (workingRrsets.insert (rrsetIdentity record) working) := by
  obtain ⟨hindexed, hrecs, hsource⟩ := h.at hserves (rrsetIdentity record)
  have hkey := rrsetKey_fromRecord record
  obtain ⟨working, hremove, hnext, hversion, hkept⟩ :=
    hindexed.remove ((hrecs _).mpr ⟨hmem, hkey⟩)
  refine ⟨working, by rw [removeDeltaRecord, hremove], ?_⟩
  refine h.insert hnext ?_ ?_ fun kept hmember => hsource kept (hkept kept hmember)
  · intro other
    rw [hversion, Finset.mem_erase, hrecs, Finset.mem_erase, and_assoc]
  · intro other hother
    rw [Finset.mem_erase]
    exact and_iff_right fun heq => hother (heq ▸ hkey)

/-- Only a record of the version can be removed. -/
theorem WorkingFor.mem_of_remove (h : WorkingFor start version source workingRrsets)
    (hserves : Serves currentZone start source) {next : WorkingRrsets}
    (hremove : removeDeltaRecord currentZone workingRrsets record = .ok next) :
    fromRecord record ∈ version := by
  obtain ⟨hindexed, hrecs, -⟩ := h.at hserves (rrsetIdentity record)
  refine ((hrecs _).mp ((hindexed.mem_iff _).mpr ?_)).1
  by_contra hnone
  rw [Bool.not_eq_true, Option.isSome_eq_false_iff, Option.isNone_iff_eq_none] at hnone
  rw [removeDeltaRecord, WorkingRrset.remove, hnone] at hremove
  cases hremove

theorem WorkingFor.add (h : WorkingFor start version source workingRrsets)
    (hserves : Serves currentZone start source) (hsourceRecord : source record) :
    WorkingFor start (Insert.insert (fromRecord record) version) source
      (addDeltaRecord currentZone workingRrsets record) := by
  obtain ⟨hindexed, hrecs, hsource⟩ := h.at hserves (rrsetIdentity record)
  have hkey := rrsetKey_fromRecord record
  obtain ⟨hnext, hversion⟩ := hindexed.add record
  refine h.insert hnext ?_ ?_ ?_
  · intro other
    rw [hversion, Finset.mem_insert, hrecs, Finset.mem_insert, or_and_right]
    exact or_congr_left ⟨fun heq => ⟨heq, heq ▸ hkey⟩, And.left⟩
  · intro other hother
    rw [Finset.mem_insert]
    exact or_iff_right fun heq => hother (heq ▸ hkey)
  · intro kept hkept
    unfold WorkingRrset.add at hkept
    grind

end Zone

end BoronDns
