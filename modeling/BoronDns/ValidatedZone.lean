import BoronDns.IncrementalTransfer

/-!
What every validated snapshot holds: RRsets whose records passed the checks of a
transfer, one SOA, at the apex and with the serial of the snapshot, NS records at the
apex, and aliases that stand with nothing they may not. A full transfer builds such a
snapshot, and an accepted incremental transfer keeps it.
-/

namespace BoronDns

open List Except RrsetKey RecordType

open ZoneSnapshot (soaShare)
open RecordKey (fromRecord)

variable {rrset : Rrset} {record currentSoa : ResourceRecord} {identity : ℕ}
  {answers : List ResourceRecord} {qid : UInt16} {messages : List (List UInt8)} {delta : IxfrDelta}
  {sequences : List IxfrDeltaSequence}

section Content

/-- An RRset whose records passed the checks of a transfer. -/
structure StoredRrset (zoneApex : DomainName) (qclass : UInt16) (rrset : Rrset) : Prop where
  owner : rrset.owner.toAsciiLowercased = rrset.owner
  nonempty : rrset.rdatas ≠ []
  distinct : (rrset.rdatas.map (canonicalRdataIdentity rrset.rrType)).Nodup
  content : ∀ record ∈ rrset.records, TransferContent zoneApex qclass record

def apexSoaKey (zoneApex : DomainName) (qclass : UInt16) : RrsetKey :=
  ⟨zoneApex.canonicalKey, soa, qclass⟩

def mapRecords (rrsets : RrsetMap) : List ResourceRecord := rrsets.values.flatMap Rrset.records

/-- The RRsets of a zone that passed the checks, with the serial of its SOA. -/
structure ZoneContent (zoneApex : DomainName) (qclass : UInt16) (rrsets : RrsetMap)
    (serial : UInt32) : Prop where
  keysMatch : KeysMatch rrsets
  stored : ∀ key rrset, rrsets.lookup key = some rrset → StoredRrset zoneApex qclass rrset
  soa : ∃ rrset rdata, rrsets.lookup (apexSoaKey zoneApex qclass) = some rrset ∧
    rrset.rdatas = [rdata] ∧ soaSerial rdata = .ok serial
  soleSoa : ∀ key rrset, rrsets.lookup key = some rrset → key.rrType = RecordType.soa →
    key = apexSoaKey zoneApex qclass
  ns : ∃ rrset, rrsets.lookup ⟨zoneApex.canonicalKey, ns, qclass⟩ = some rrset
  coexist : Coexist zoneApex (mapRecords rrsets)

/-- A snapshot that passed the checks. -/
structure Validated {platform : Platform} (zoneApex : DomainName) (qclass : UInt16)
    (snapshot : ZoneSnapshot platform) : Prop where
  origin : snapshot.origin.canonicalKey = zoneApex.canonicalKey
  originKey : snapshot.originKey = zoneApex.canonicalKey
  soaTimers : snapshot.soaTimers = soaTimersFromRrsets snapshot.originKey snapshot.rrsets
  soaRecordCount : snapshot.soaRecordCount = snapshot.rrsets.total soaShare
  content : ∃ serial, snapshot.serial = some serial ∧
    ZoneContent zoneApex qclass snapshot.rrsets serial

variable {platform : Platform} {zoneApex : DomainName} {qclass : UInt16} {rrsets : RrsetMap}
  {serial : UInt32}

theorem mem_mapRecords :
    record ∈ mapRecords rrsets ↔ ∃ key rrset, rrsets.lookup key = some rrset ∧
      record ∈ rrset.records := by
  rw [mapRecords, mem_flatMap]
  constructor
  · rintro ⟨rrset, hrrset, hrec⟩
    obtain ⟨entry, hentry, rfl⟩ := mem_map.mp hrrset
    exact ⟨entry.1, entry.2, AList.mem_lookup_iff.mpr hentry, hrec⟩
  · rintro ⟨key, rrset, hlook, hrec⟩
    exact ⟨rrset, mem_map.mpr ⟨⟨key, rrset⟩, AList.mem_lookup_iff.mp hlook, rfl⟩, hrec⟩

theorem mem_records :
    record ∈ rrset.records ↔ ∃ rdata ∈ rrset.rdatas,
      ⟨rrset.owner, rrset.rrType, rrset.cls, rrset.ttl, rdata⟩ = record :=
  mem_map

/-- The RRset of records that passed the checks. -/
theorem StoredRrset.of_holds {version : ZoneVersion} (h : Holds version rrset)
    (hsource : FromSource (TransferContent zoneApex qclass) rrset) :
    StoredRrset zoneApex qclass rrset := by
  refine ⟨h.owner, ?_, h.distinct, ?_⟩
  · intro hempty
    obtain ⟨record, hrec, hkey, -⟩ := h.ttl_mem
    have hmem := (h.rdatas record.rdata).mpr ⟨record, hrec, hkey, rfl⟩
    rw [hempty] at hmem
    exact absurd hmem not_mem_nil
  · intro record hrec
    obtain ⟨rdata, hrdata, rfl⟩ := mem_records.mp hrec
    obtain ⟨sent, hsent, hkey, rfl⟩ := hsource rdata hrdata
    have htype : sent.rrType = rrset.rrType := congrArg rrType hkey
    have hcls : sent.cls = rrset.cls := congrArg cls hkey
    rw [← htype, ← hcls]
    exact hsent.of_owner (congrArg RrsetKey.owner hkey).symm rrset.ttl

variable {snapshot : ZoneSnapshot platform}

/-- The RRsets of a validated zone are such as its image is compiled from. -/
theorem Validated.fromTransfer (h : Validated zoneApex qclass snapshot) {key : RrsetKey}
    (hlook : snapshot.rrsets.lookup key = some rrset) : rrset.FromTransfer := by
  obtain ⟨serial, -, hzone⟩ := h.content
  have hstored := hzone.stored key rrset hlook
  have hcontent := fun rdata hrdata => hstored.content _ (mem_records.mpr ⟨rdata, hrdata, rfl⟩)
  obtain ⟨first, hfirst⟩ := exists_mem_of_ne_nil _ hstored.nonempty
  refine ⟨(hcontent first hfirst).ownerFits, fun rdata hrdata offset len hoffset hlen => ?_⟩
  have hfits := (hcontent rdata hrdata).namesFit offset hoffset
  obtain ⟨labels, -, hat, rfl⟩ := wireNameLenAt_sound hlen
  have hbound := hat.bound (by simp)
  rw [length_append, length_singleton] at hbound
  dsimp only at hfits
  omega

theorem Accepted.validated {records : List ResourceRecord}
    (h : Accepted snapshot zoneApex qclass records)
    (horigin : snapshot.origin = zoneApex) : Validated zoneApex qclass snapshot := by
  obtain ⟨soa, hsoa, hsole, htype, hkey, serial, hserial, hsnapshot⟩ := h.sole_soa
  have hstored : ∀ key rrset, snapshot.rrsets.lookup key = some rrset →
      Stores (versionOf records) key (some rrset) := fun key rrset hlook => hlook ▸ h.stores key
  refine ⟨by rw [horigin], h.originKey, h.soaTimers, h.soaRecordCount, serial, hsnapshot,
    fun key rrset hlook => (hstored key rrset hlook).1,
    fun key rrset hlook => .of_holds (hstored key rrset hlook).2
    (h.source_content key rrset hlook), ?_, ?_, ?_, ?_⟩
  · obtain ⟨rrset, rdata, hlook, hsoaStored⟩ :=
      Stores.exists_soa (h.stores _) hsole (DomainName.toAsciiLowercased_idem soa.owner)
    have hcontent := h.source_content _ _ hlook
    rw [rrsetKey_fromRecord, hkey] at hlook
    refine ⟨rrset, rdata, hlook, hsoaStored.rdatas, ?_⟩
    obtain ⟨sent, hsent, hsentKey, rfl⟩ := hcontent rdata (by simp [hsoaStored.rdatas])
    have hsentType : sent.rrType = RecordType.soa :=
      (congrArg rrType (hsentKey.trans hsoaStored.key)).trans htype
    rw [(soa_eq_of_identity hsent (h.content soa hsoa) hsentType htype (by
      rw [hsentType, hsoaStored.identity]; rfl)).1, hserial]
  · intro key rrset hlook hrrType
    rw [key_of_stored_soa h.stores hsole hlook hrrType, rrsetKey_fromRecord, hkey]
    rfl
  · obtain ⟨ns, hns, hnsType, hnsOwner⟩ := h.ns
    obtain ⟨rrset, -, hlook, -⟩ := exists_stored_of_mem h.stores hns
    rw [rrsetIdentity, hnsOwner, hnsType, (h.content ns hns).cls] at hlook
    exact ⟨rrset, hlook⟩
  · refine h.coexist.of_represented fun record hrec => ?_
    obtain ⟨key, rrset, hlook, hrec⟩ := mem_mapRecords.mp hrec
    obtain ⟨rdata, hrdata, rfl⟩ := mem_records.mp hrec
    exact represented_of_stored h.content (hstored key rrset hlook)
      (h.source_content key rrset hlook) hrdata _

theorem validated_of_axfr {qtype : UInt16}
    (h : parseAxfrResponseWithQuestion identity qid zoneApex qclass qtype messages = .ok snapshot) :
    Validated zoneApex qclass snapshot := by
  have hparsed := h
  obtain ⟨⟨records, serial⟩, hread, hparsed⟩ := bind_eq_ok_iff.mp hparsed
  obtain ⟨_, -, hparsed⟩ := bind_eq_ok_iff.mp hparsed
  exact (accepted_of_axfr hread h).validated (congrArg ZoneSnapshot.origin (ok.inj hparsed)).symm

end Content

section Sequences

variable {zoneApex : DomainName} {qclass : UInt16} {terminated : Bool}

/-- Either no sequence is read, or one with an SOA of the apex, and then those behind it. -/
theorem deltaSequences_ok {outerSoa expected final : ResourceRecord}
    (h : deltaSequences zoneApex qclass outerSoa expected answers = .ok (sequences, final,
      terminated)) :
    (sequences = [] ∧ final = expected) ∨
      ∃ delta others rest, sequences = delta :: others ∧ answers = delta.records ++ rest ∧
        rrsetIdentity delta.newSoa = apexSoaKey zoneApex qclass ∧
        deltaSequences zoneApex qclass outerSoa delta.newSoa rest = .ok
          (others, final, terminated) := by
  unfold deltaSequences at h
  split at h
  · simp only [ok.injEq, Prod.mk.injEq] at h
    exact Or.inl ⟨h.1.symm, h.2.1.symm⟩
  rename_i oldSoa rest
  split at h
  · split at h
    · simp only [ok.injEq, Prod.mk.injEq] at h
      exact Or.inl ⟨h.1.symm, h.2.1.symm⟩
    · cases h
  split at h
  · cases h
  split at h
  · cases h
  rename_i newSoa afterSoa hdrop
  split at h
  · cases h
  rename_i hnew
  rw [not_or, not_not, not_not] at hnew
  obtain ⟨_, -, h⟩ := bind_eq_ok_iff.mp h
  obtain ⟨⟨others, last, done⟩, hothers, h⟩ := bind_eq_ok_iff.mp h
  obtain ⟨rfl, rfl, rfl⟩ := h
  refine Or.inr ⟨_, others, _, rfl, ?_, ?_, hothers⟩
  · have hrest := takeWhile_append_dropWhile (p := fun record => !isSoa record) (l := rest)
    rw [hdrop] at hrest
    simp [IxfrDeltaSequence.records, hrest]
  · have hhead := List.head?_dropWhile_not (fun record => !isSoa record) rest
    rw [hdrop] at hhead
    rw [rrsetIdentity, hnew.1, hnew.2, (isSoa_iff newSoa).mp (by simpa using hhead)]
    rfl

/-- The sequences are read from the answers one after the other, up to the SOA of the last. -/
theorem deltaSequences_spec {outerSoa expected final : ResourceRecord}
    (h : deltaSequences zoneApex qclass outerSoa expected answers = .ok (sequences, final,
      terminated)) :
    (∃ rest, answers = sequences.flatMap IxfrDeltaSequence.records ++ rest) ∧
      (∀ delta ∈ sequences, rrsetIdentity delta.newSoa = apexSoaKey zoneApex qclass) ∧
      final = (sequences.map IxfrDeltaSequence.newSoa).getLastD expected := by
  induction sequences generalizing expected answers with
  | nil =>
    rcases deltaSequences_ok h with ⟨-, hfinal⟩ | ⟨_, _, _, hcons, -⟩
    · exact ⟨⟨answers, rfl⟩, by simp, hfinal⟩
    · cases hcons
  | cons delta others ih =>
    rcases deltaSequences_ok h with ⟨hnil, -⟩ | ⟨_, _, rest, hcons, rfl, hnew, hothers⟩
    · cases hnil
    obtain ⟨rfl, rfl⟩ := List.cons.inj hcons
    obtain ⟨⟨more, rfl⟩, hnews, rfl⟩ := ih hothers
    exact ⟨⟨more, by simp⟩, forall_mem_cons.mpr ⟨hnew, hnews⟩, (getLastD_cons ..).symm⟩

end Sequences

section Owners

variable {zoneApex : DomainName} {records : List ResourceRecord}

/-- Records coexist when those of each owner do. -/
theorem Coexist.of_owners (h : ∀ record ∈ records, ∃ part, Coexist zoneApex part ∧
    ∀ other ∈ records, sameOwner record other → other ∈ part) : Coexist zoneApex records := by
  choose! part hpart hmem using h
  have hself : ∀ r ∈ records, r ∈ part r := fun r hr => hmem r hr r hr rfl
  exact ⟨fun r hr => (hpart r hr).readable r (hself r hr),
    fun r hr s hs hown => (hpart r hr).single r (hself r hr) s (hmem r hr s hs hown) hown,
    fun r hr s hs hown => (hpart r hr).dnameCname r (hself r hr) s (hmem r hr s hs hown) hown,
    fun r hr s hs hown => (hpart r hr).dnameNs r (hself r hr) s (hmem r hr s hs hown) hown,
    fun r hr s hs hown => (hpart r hr).cnameOther r (hself r hr) s (hmem r hr s hs hown) hown⟩

theorem sameOwner_iff (left right : ResourceRecord) :
    sameOwner left right ↔ left.owner.canonicalKey = right.owner.canonicalKey :=
  DomainName.toAsciiLowercased_eq_iff _ _

end Owners

section Incremental

variable {platform : Platform} {zoneApex : DomainName} {qclass : UInt16}
  {current updated : ZoneSnapshot platform}

/-- The records of an owner, when the records of an updated zone there come from the zone before. -/
theorem coexist_of_changes {before after : RrsetMap} (hkeys : KeysMatch after)
    (hbefore : Coexist zoneApex (mapRecords before)) (changed : NameKey → Prop)
    (hunchanged : ∀ key : RrsetKey, ¬ changed key.owner → after.lookup key = before.lookup key)
    (hchanged : ∀ owner, changed owner →
      Coexist zoneApex ((mapRecords after).filter fun record =>
      record.owner.canonicalKey = owner)) :
    Coexist zoneApex (mapRecords after) := by
  refine Coexist.of_owners fun record hrec => ?_
  refine ⟨(mapRecords after).filter fun other => other.owner.canonicalKey =
    record.owner.canonicalKey, ?_, ?_⟩
  · by_cases hown : changed record.owner.canonicalKey
    · exact hchanged _ hown
    · refine hbefore.of_represented fun other hother => ?_
      obtain ⟨hmem, hsame⟩ := mem_filter.mp hother
      obtain ⟨key, rrset, hlook, hrrset⟩ := mem_mapRecords.mp hmem
      obtain ⟨rdata, hrdata, rfl⟩ := mem_records.mp hrrset
      have hkey : key.owner = record.owner.canonicalKey := by
        rw [← hkeys key rrset hlook]
        exact of_decide_eq_true hsame
      refine ⟨_, mem_mapRecords.mpr ⟨key, rrset, ?_, hrrset⟩, rfl, rfl, fun _ => rfl⟩
      rw [← hunchanged key (hkey ▸ hown), hlook]
  · intro other hother hsame
    exact mem_filter.mpr ⟨hother, decide_eq_true ((sameOwner_iff _ _).mp hsame).symm⟩

/-- The records at an owner, as a transfer reads them, coexist when those of the RRsets do. -/
theorem coexist_at_owner {owners : List NameKey} (hkeys : KeysMatch updated.rrsets)
    (h : Coexist zoneApex (owners.flatMap updated.transferRecordsAtNameKey)) {owner : NameKey}
    (hown : owner ∈ owners) :
    Coexist zoneApex
      ((mapRecords updated.rrsets).filter fun record => record.owner.canonicalKey = owner) := by
  refine h.of_represented fun record hrec => ?_
  obtain ⟨hmem, hsame⟩ := mem_filter.mp hrec
  obtain ⟨key, rrset, hlook, hrrset⟩ := mem_mapRecords.mp hmem
  obtain ⟨rdata, hrdata, rfl⟩ := mem_records.mp hrrset
  have hkey : key.owner = owner := by
    rw [← hkeys key rrset hlook]
    exact of_decide_eq_true hsame
  refine ⟨⟨rrset.owner, rrset.rrType, rrset.cls,
    updated.recordTtlByOwnerKey owner rrset.cls rrset.rrType rrset.ttl rdata,
    rdata⟩, ?_, rfl, rfl, fun _ => rfl⟩
  refine mem_flatMap.mpr ⟨owner, hown,
    mem_flatMap.mpr ⟨rrset, ?_, mem_map.mpr ⟨rdata, hrdata, rfl⟩⟩⟩
  exact mem_map.mpr ⟨⟨key, rrset⟩, mem_filter.mpr ⟨AList.mem_lookup_iff.mp hlook,
    decide_eq_true hkey⟩, rfl⟩

theorem parseIxfrIncrementalDeltaParts_spec
    (h : parseIxfrIncrementalDeltaParts zoneApex qclass currentSoa answers = .ok (delta, true)) :
    (∀ sequence ∈ delta.sequences, ∀ record ∈ sequence.records, record ∈ answers) ∧
      ∃ front last, delta.sequences = front ++ [last] ∧
      rrsetIdentity last.newSoa = apexSoaKey zoneApex qclass ∧
        soaSerial last.newSoa.rdata = .ok delta.newSerial := by
  obtain ⟨_, -, h⟩ := bind_eq_ok_iff.mp h
  split at h
  · cases h
  obtain ⟨_, -, h⟩ := bind_eq_ok_iff.mp h
  obtain ⟨oldSerial, hold, h⟩ := bind_eq_ok_iff.mp h
  obtain ⟨newSerial, -, h⟩ := bind_eq_ok_iff.mp h
  have hold := mapError_eq_ok_iff.mp hold
  dsimp only at h
  split at h
  · cases h
  rename_i hforward
  obtain ⟨⟨sequences, finalSoa, terminated⟩, hsequences, h⟩ := bind_eq_ok_iff.mp h
  obtain ⟨⟨more, rfl⟩, hnews, rfl⟩ := deltaSequences_spec hsequences
  split at h
  swap
  · exact absurd (Prod.mk.inj (ok.inj h)).2 (by simp)
  obtain ⟨finalSerial, hfinalSerial, h⟩ := bind_eq_ok_iff.mp h
  have hfinalSerial := mapError_eq_ok_iff.mp hfinalSerial
  split at h
  · cases h
  rename_i hsame
  obtain ⟨rfl, -⟩ := Prod.mk.inj (ok.inj h)
  obtain rfl : finalSerial = newSerial := by
    by_contra hne
    exact hsame (by simp [hne])
  refine ⟨fun sequence hsequence record hrec => mem_cons_of_mem _
    (mem_append_left _ (mem_flatMap.mpr ⟨sequence, hsequence, hrec⟩)), ?_⟩
  rcases eq_nil_or_concat sequences with rfl | ⟨front, last, rfl⟩
  · -- without a sequence the final SOA is the current one, which is not ahead of itself
    obtain rfl : oldSerial = finalSerial := ok.inj (hold.symm.trans hfinalSerial)
    exact absurd (Or.inl (UInt32.sub_self _)) hforward
  · exact ⟨front, last, concat_eq_append .., hnews last (by simp), by simpa using hfinalSerial⟩

/-- What the checks at the end of an incremental transfer say. -/
theorem validateIncrementalZone_spec
    (h : validateIncrementalZone zoneApex qclass updated delta = .ok ()) :
    (updated.transferRrsetRecordsByKey (apexSoaKey zoneApex qclass)).length = 1 ∧
      updated.soaRecordCount = 1 ∧
      (updated.transferRrsetRecordsByKey ⟨zoneApex.canonicalKey, ns, qclass⟩).isEmpty = false ∧
      Coexist zoneApex ((affectedOwners delta).flatMap updated.transferRecordsAtNameKey) := by
  unfold validateIncrementalZone at h
  dsimp only at h
  split at h
  · cases h
  rename_i hsoa
  rw [not_or, not_not, not_not] at hsoa
  split at h
  · cases h
  rename_i hns
  exact ⟨hsoa.1, hsoa.2, by simpa using hns, (validateCnameAndDnameCoexistence_ok_iff _ _).mp
    (mapError_eq_ok_iff.mp h)⟩

variable {key : RrsetKey}

theorem rdatas_of_length_transferRrsetRecordsByKey {count : ℕ}
    (h : (updated.transferRrsetRecordsByKey key).length = count) (hcount : count ≠ 0) :
    ∃ rrset, updated.rrsets.lookup key = some rrset ∧ rrset.rdatas.length = count := by
  unfold ZoneSnapshot.transferRrsetRecordsByKey at h
  cases hlook : updated.rrsets.lookup key with
  | none =>
    rw [hlook] at h
    exact absurd h.symm hcount
  | some rrset =>
    rw [hlook] at h
    exact ⟨rrset, rfl, by simpa using h⟩

variable {source : ResourceRecord → Prop} {working : WorkingRrsets}

/-- What is stored under a key after the change: the records that the version has there, or the
RRset of the zone before. -/
theorem lookup_updated {start version : ZoneVersion} (h : WorkingFor start version source working)
    (hlook : (current.rrsets.putAll (replacementsOf working)).lookup key = some rrset) :
    Stores version key (some rrset) ∨ working.lookup key = none ∧
      current.rrsets.lookup key = some rrset := by
  rw [lookup_replacementsOf] at hlook
  cases hfound : working.lookup key with
  | none =>
    rw [hfound] at hlook
    exact Or.inr ⟨rfl, hlook⟩
  | some worked =>
    rw [hfound] at hlook
    exact Or.inl (hlook ▸ h.stores_touched hfound)

/-- The stored RRset has the data of every record that the version has under its key. -/
theorem rdata_mem_updated {start version : ZoneVersion} (hserves : Serves current start source)
    (h : WorkingFor start version source working) {wanted : RecordKey} (hwanted : wanted ∈ version)
    (hlook : (current.rrsets.putAll (replacementsOf working)).lookup wanted.rrsetKey =
      some rrset) :
    wanted.rdata ∈ rrset.rdatas.map (canonicalRdataIdentity wanted.rrType) := by
  rcases lookup_updated h hlook with ⟨hkey, hholds⟩ | ⟨hnone, hbefore⟩
  · have htype : rrset.rrType = wanted.rrType := congrArg rrType hkey
    rw [← htype, hholds.rdatas]
    exact ⟨wanted, hwanted, hkey.symm, rfl⟩
  · have hserved := (hserves.mem_iff _ wanted).mpr ⟨(h.untouched wanted hnone).mp hwanted, rfl⟩
    obtain ⟨record, hrec, heq⟩ := mem_versionOf.mp hserved
    obtain ⟨found, hfound, rdata, hrdata, rfl⟩ := mem_transferRrsetRecordsByKey.mp hrec
    obtain rfl := Option.some.inj (hbefore.symm.trans hfound)
    exact mem_map.mpr ⟨rdata, hrdata, congrArg RecordKey.rdata heq⟩

theorem ZoneContent.exists_serves {serial : UInt32}
    (h : ZoneContent zoneApex qclass current.rrsets serial) :
    ∃ version, Serves current version (TransferContent zoneApex qclass) := by
  refine ⟨_, serves_servedVersion h.keysMatch
    (fun key rrset hlook => (h.stored key rrset hlook).distinct) ?_⟩
  intro key record hrec
  obtain ⟨rrset, hlook, rdata, hrdata, rfl⟩ := mem_transferRrsetRecordsByKey.mp hrec
  rw [← h.keysMatch key rrset hlook]
  exact ((h.stored key rrset hlook).content _ (mem_records.mpr ⟨rdata, hrdata, rfl⟩)).of_owner rfl
    _

theorem Validated.applyIxfrIncremental (h : Validated zoneApex qclass current)
    (hcontent : ∀ record ∈ answers, TransferContent zoneApex qclass record)
    (happly : applyIxfrIncremental identity zoneApex qclass current currentSoa answers =
      .ok (.updated updated)) :
    Validated zoneApex qclass updated := by
  obtain ⟨serial, hserial, hzone⟩ := h.content
  obtain ⟨delta, working, hparts, hfold, rfl, hchecks⟩ := applyIxfrIncremental_spec happly
  obtain ⟨hans, front, last, hlast, hlastKey, hlastSerial⟩ :=
    parseIxfrIncrementalDeltaParts_spec hparts
  obtain ⟨hsoaLength, hsoaCount, hns, hcoexist⟩ := validateIncrementalZone_spec hchecks
  have hrecs : ∀ sequence ∈ delta.sequences, ∀ record ∈ sequence.records,
      rrsetIdentity record ∈ delta.affectedRrsets ∧ TransferContent zoneApex qclass record := by
    intro sequence hsequence record hrec
    refine ⟨mem_dedup.mpr (mem_flatMap.mpr ⟨sequence, hsequence, mem_map_of_mem hrec⟩), ?_⟩
    exact hcontent record (hans sequence hsequence record hrec)
  obtain ⟨start, hserves⟩ := hzone.exists_serves
  obtain ⟨-, hworking⟩ := (WorkingFor.chain hserves (fun sequence hsequence record hrec =>
    (hrecs sequence hsequence record (mem_append_right _ hrec)).2) workingFor_empty).2 working
      hfold
  have hlastMem : fromRecord last.newSoa ∈ followed start delta.sequences := by
    rw [hlast, followed, foldl_concat]
    exact mem_addRecords.mpr (.inr ⟨last.newSoa, mem_cons_self .., rfl⟩)
  have hsource : ∀ key rrset,
      (current.rrsets.putAll (replacementsOf working)).lookup key = some rrset →
      FromSource (TransferContent zoneApex qclass) rrset := fun key rrset hlook =>
    hworking.fromSource (fun key rrset hbefore rdata hrdata =>
      ⟨_, (hzone.stored key rrset hbefore).content _ (mem_records.mpr ⟨rdata, hrdata, rfl⟩), rfl,
        rfl⟩) hlook
  have hkeys : KeysMatch (current.rrsets.putAll (replacementsOf working)) := by
    intro key rrset hlook
    rcases lookup_updated hworking hlook with hstored | ⟨-, hbefore⟩
    · exact hstored.1
    · exact hzone.keysMatch key rrset hbefore
  have hstored : ∀ key rrset,
      (current.rrsets.putAll (replacementsOf working)).lookup key = some rrset →
      StoredRrset zoneApex qclass rrset := by
    intro key rrset hlook
    rcases lookup_updated hworking hlook with hstored | ⟨-, hbefore⟩
    · exact .of_holds hstored.2 (hsource key rrset hlook)
    · exact hzone.stored key rrset hbefore
  have hcount := soaRecordCount_withCowRrsetReplacements h.soaRecordCount identity delta.newSerial
    (by rw [map_fst_replacementsOf]; exact working.nodupKeys)
  obtain ⟨soa, hsoa, hsoaRdatas⟩ :=
    rdatas_of_length_transferRrsetRecordsByKey hsoaLength Nat.one_ne_zero
  obtain ⟨ns, hnsLookup, -⟩ := rdatas_of_length_transferRrsetRecordsByKey rfl
    (fun hzero => by rw [length_eq_zero_iff.mp hzero] at hns; cases hns)
  refine ⟨h.origin, h.originKey, rfl, hcount, delta.newSerial, rfl, hkeys, hstored, ?_, ?_,
    ⟨ns, hnsLookup⟩, ?_⟩
  · obtain ⟨rdata, hrdatas⟩ := length_eq_one_iff.mp hsoaRdatas
    obtain ⟨sent, hsent, hsentKey, rfl⟩ := hsource _ soa hsoa rdata (by simp [hrdatas])
    have htype : last.newSoa.rrType = RecordType.soa := congrArg rrType hlastKey
    have hsentType : sent.rrType = RecordType.soa :=
      congrArg rrType (hsentKey.trans (hkeys _ soa hsoa))
    have hid := rdata_mem_updated hserves hworking hlastMem
      (by rw [rrsetKey_fromRecord, hlastKey]; exact hsoa)
    rw [hrdatas, map_singleton, mem_singleton] at hid
    have hlastContent :=
      (hrecs last (by simp [hlast]) last.newSoa (by simp [IxfrDeltaSequence.records])).2
    refine ⟨soa, sent.rdata, hsoa, hrdatas, ?_⟩
    rw [← hlastSerial, (soa_eq_of_identity hsent hlastContent hsentType htype ?_).1]
    rw [hsentType, ← htype]
    exact hid.symm
  · intro key rrset hlook htype
    by_contra hne
    have htotal := hcount.symm.trans hsoaCount
    rw [AList.total_eq_erase _ _ (apexSoaKey zoneApex qclass),
      show AList.lookup _ (AList.putAll ..) = _ from hsoa,
      AList.share_some, soaShare, if_pos (by rfl), hsoaRdatas] at htotal
    have hother := AList.total_le_of_lookup (AList.erase _ (AList.putAll current.rrsets _)) soaShare
      ((AList.lookup_erase_ite _ _ _).trans ((if_neg hne).trans hlook))
    rw [soaShare, if_pos htype] at hother
    have hpositive := length_pos_of_ne_nil (hstored key rrset hlook).nonempty
    omega
  · refine coexist_of_changes hkeys hzone.coexist (· ∈ affectedOwners delta) ?_
      fun owner hown => coexist_at_owner hkeys hcoexist hown
    intro key hunchanged
    have hnone : working.lookup key = none := by
      refine AList.lookup_eq_none.mpr fun hmem => hunchanged ?_
      obtain ⟨sequence, hsequence, record, hrec, rfl⟩ :=
        ((mem_sequences hfold).mp hmem).resolve_left (AList.notMem_empty key)
      rw [affectedOwners, (mergeSort_perm _ _).mem_iff, mem_dedup]
      exact mem_map_of_mem (hrecs sequence hsequence record hrec).1
    show (current.rrsets.putAll (replacementsOf working)).lookup key = _
    rw [lookup_replacementsOf, hnone]
    rfl

/-- An accepted incremental response is one of differences, or the whole zone. -/
theorem parseIxfrResponse_updated
    (hparse : parseIxfrResponse identity qid zoneApex qclass current messages =
      .ok (.updated updated)) :
    (∃ currentSoa answers, (∀ record ∈ answers, TransferContent zoneApex qclass record) ∧
      applyIxfrIncremental identity zoneApex qclass current currentSoa answers =
        .ok (.updated updated)) ∨
    parseAxfrResponseWithQuestion identity qid zoneApex qclass ixfr messages = .ok updated := by
  unfold parseIxfrResponse at hparse
  split at hparse
  · cases hparse
  obtain ⟨_, -, hparse⟩ := bind_eq_ok_iff.mp hparse
  split at hparse
  · cases hparse
  obtain ⟨answers, hans, hparse⟩ := bind_eq_ok_iff.mp hparse
  split at hparse
  · cases hparse
  split at hparse
  · cases hparse
  split at hparse
  · obtain ⟨_, -, hparse⟩ := bind_eq_ok_iff.mp hparse
    obtain ⟨_, -, hparse⟩ := bind_eq_ok_iff.mp hparse
    split at hparse
    · cases hparse
    · cases hparse
  · split at hparse
    · exact .inl ⟨_, _, checked_ixfrAnswers hans, hparse⟩
    · cases haxfr : (parseAxfrResponseWithQuestion identity qid zoneApex qclass ixfr messages :
          Except AxfrError (ZoneSnapshot platform)) with
      | error error =>
        rw [haxfr] at hparse
        exact absurd hparse (by simp [Except.mapError, Except.map])
      | ok full =>
        rw [haxfr] at hparse
        exact .inr (congrArg Except.ok (IxfrResponse.updated.inj (ok.inj hparse)))

/-- An accepted incremental transfer keeps a validated snapshot validated. -/
theorem validated_of_ixfr (h : Validated zoneApex qclass current)
    (hparse : parseIxfrResponse identity qid zoneApex qclass current messages =
      .ok (.updated updated)) :
    Validated zoneApex qclass updated := by
  rcases parseIxfrResponse_updated hparse with ⟨currentSoa, answers, hans, happly⟩ | hfull
  · exact h.applyIxfrIncremental hans happly
  · exact validated_of_axfr hfull

end Incremental

end BoronDns
