import BoronDns.DeltaChain
import BoronDns.SnapshotRebuild
import BoronDns.TransferContent

/-!
Snapshots that store a version of a zone. A full transfer stores the version of its
records, with one SOA. Where the snapshot also keeps the times to live of the records,
the records it gives for its RRsets are those of the version. The checks at the
end of an incremental transfer accept every snapshot that stores an accepted version.
-/

namespace BoronDns

open List DomainName Except ZoneSnapshot RrsetKey RecordType
open RecordKey (fromRecord)

section FullTransfers

variable {platform : Platform} {snapshot : ZoneSnapshot platform} {zoneApex : DomainName}
  {qclass : UInt16} {records : List ResourceRecord}

/-- A full transfer delivered the records and built the snapshot from them. -/
def FullTransfer (snapshot : ZoneSnapshot platform) (zoneApex : DomainName) (qclass : UInt16)
    (records : List ResourceRecord) : Prop :=
  ∃ identity qid messages serial, axfrZoneRecords qid zoneApex qclass axfr messages =
      .ok (records, serial) ∧ parseAxfrResponse identity qid zoneApex qclass messages = .ok snapshot

/-- What a full transfer leaves in its snapshot. -/
structure Accepted (snapshot : ZoneSnapshot platform) (zoneApex : DomainName) (qclass : UInt16)
    (records : List ResourceRecord) : Prop where
  originKey : snapshot.originKey = zoneApex.canonicalKey
  soaTimers : snapshot.soaTimers = soaTimersFromRrsets snapshot.originKey snapshot.rrsets
  soaRecordCount : snapshot.soaRecordCount = snapshot.rrsets.total soaShare
  content : ∀ record ∈ records, TransferContent zoneApex qclass record
  stores : ∀ key, Stores (versionOf records) key (snapshot.rrsets.lookup key)
  source : ∀ key rrset, snapshot.rrsets.lookup key = some rrset → FromSource (· ∈ records) rrset
  soa : ∃ soa ∈ records, isSoa soa = true ∧ soa.owner.canonicalKey = zoneApex.canonicalKey ∧
    (∀ record ∈ records, isSoa record = true → record = soa) ∧
    ∃ serial, soaSerial soa.rdata = .ok serial ∧ snapshot.serial = some serial
  ns : ∃ record ∈ records, record.rrType = ns ∧ record.owner.canonicalKey = zoneApex.canonicalKey
  coexist : Coexist zoneApex records

theorem single_soa_of_validate (h : validateExactApexSoa zoneApex records = .ok ())
    {soa : ResourceRecord} (hsoa : soa ∈ records) (htype : isSoa soa = true) :
    ∀ record ∈ records, isSoa record = true → record = soa := by
  unfold validateExactApexSoa at h
  split at h
  next only honly =>
    have hmem : ∀ record ∈ records, isSoa record = true → record = only := by
      intro record hrec hrecordType
      have hfiltered : record ∈ records.filter fun record => record.rrType = RecordType.soa :=
        mem_filter.mpr ⟨hrec, decide_eq_true ((isSoa_iff record).mp hrecordType)⟩
      rw [honly] at hfiltered
      exact mem_singleton.mp hfiltered
    intro record hrec hrecordType
    rw [hmem record hrec hrecordType, hmem soa hsoa htype]
  · cases h

theorem accepted_of_axfr {identity : ℕ} {qid qtype : UInt16} {messages : List (List UInt8)}
    {serial : Option UInt32}
    (hread : axfrZoneRecords qid zoneApex qclass qtype messages = .ok (records, serial))
    (h : parseAxfrResponseWithQuestion identity qid zoneApex qclass qtype messages = .ok snapshot) :
    Accepted snapshot zoneApex qclass records := by
  obtain ⟨hcontent, soa, hsoa, htype, hown, number, hnumber, hserial⟩ :=
    checked_axfrZoneRecords hread
  unfold parseAxfrResponseWithQuestion at h
  rw [hread, ok_bind_eq] at h
  obtain ⟨_, hvalid, h⟩ := bind_eq_ok_iff.mp h
  obtain rfl := ok.inj h
  obtain ⟨_, hexact, hvalid⟩ := bind_eq_ok_iff.mp hvalid
  obtain ⟨_, hns, hcoexist⟩ := bind_eq_ok_iff.mp hvalid
  refine ⟨rfl, rfl, soaRecordCount_active .., hcontent, fun key => ?_,
    ?_, ?_, ?_, (validateCnameAndDnameCoexistence_ok_iff _ _).mp hcoexist⟩
  · have hgathered := gathered_rrsetsFromRecords records
    have hlook := lookup_rrsetsByKey hgathered.nodup key
    show Stores _ key ((rrsetsByKey (rrsetsFromRecords records)).lookup key)
    cases hfound : (rrsetsByKey (rrsetsFromRecords records)).lookup key with
    | none =>
      intro record hrec hkey
      obtain ⟨rrset, hrrset, hrrsetKey⟩ := hgathered.covers record hrec
      rw [(hlook rrset).mpr ⟨hrrset, hrrsetKey.trans hkey⟩] at hfound
      cases hfound
    | some rrset =>
      obtain ⟨hrrset, hkey⟩ := (hlook rrset).mp hfound
      exact ⟨hkey, hgathered.holds rrset hrrset⟩
  · intro key rrset hlook rdata hrdata
    obtain ⟨hrrset, -⟩ :=
      (lookup_rrsetsByKey (gathered_rrsetsFromRecords records).nodup key rrset).mp hlook
    exact (gathered_rrsetsFromRecords records).data rrset hrrset rdata hrdata
  · exact ⟨soa, hsoa, htype, hown, single_soa_of_validate hexact hsoa htype, number, hnumber,
      hserial⟩
  · unfold validateApexNs at hns
    split at hns
    next hany =>
      obtain ⟨record, hrec, hboth⟩ := any_eq_true.mp hany
      obtain ⟨hrecordOwner, hrecordType⟩ := of_decide_eq_true hboth
      exact ⟨record, hrec, hrecordType, (toAsciiLowercased_eq_iff _ _).mp hrecordOwner⟩
    · cases hns

theorem FullTransfer.accepted (h : FullTransfer snapshot zoneApex qclass records) :
    Accepted snapshot zoneApex qclass records := by
  obtain ⟨identity, qid, messages, serial, hread, haccepted⟩ := h
  exact accepted_of_axfr hread haccepted

end FullTransfers

section SoleSoa

variable {version : ZoneVersion} {soa : RecordKey} {rrsets : RrsetMap}

def SoleSoa (version : ZoneVersion) (soa : RecordKey) : Prop :=
  soa ∈ version ∧ soa.rrType = RecordType.soa ∧ ∀ record ∈ version, record.rrType = RecordType.soa →
    record = soa

/-- The RRset of a single SOA, as it is stored. -/
structure StoredSoa (soa : RecordKey) (rrset : Rrset) (rdata : Rdata) : Prop where
  key : rrset.key = soa.rrsetKey
  owner : rrset.owner = soa.owner
  ttl : rrset.ttl = soa.ttl
  rdatas : rrset.rdatas = [rdata]
  identity : canonicalRdataIdentity RecordType.soa rdata = soa.rdata

theorem Stores.exists_soa {stored : Option Rrset} (h : Stores version soa.rrsetKey stored)
    (hsoa : SoleSoa version soa) (hown : soa.owner.toAsciiLowercased = soa.owner) :
    ∃ rrset rdata, stored = some rrset ∧ StoredSoa soa rrset rdata := by
  obtain ⟨hmem, htype, honly⟩ := hsoa
  cases stored with
  | none => exact absurd rfl (h soa hmem)
  | some rrset =>
    obtain ⟨hkey, hholds⟩ := h
    have hrrType : rrset.rrType = RecordType.soa := (congrArg rrType hkey).trans htype
    have hsame : ∀ record ∈ version, record.rrsetKey = rrset.key → record = soa := by
      intro record hrec hrecordKey
      exact honly record hrec ((congrArg rrType (hrecordKey.trans hkey)).trans htype)
    have hrdatas : ∀ rdata, rdata ∈ rrset.rdatas.map (canonicalRdataIdentity rrset.rrType) ↔
        rdata = soa.rdata := by
      intro rdata
      rw [hholds.rdatas]
      constructor
      · rintro ⟨record, hrec, hrecordKey, rfl⟩
        rw [hsame record hrec hrecordKey]
      · rintro rfl
        exact ⟨soa, hmem, hkey.symm, rfl⟩
    have hsingle : rrset.rdatas.map (canonicalRdataIdentity rrset.rrType) = [soa.rdata] := by
      refine perm_singleton.mp ((perm_ext_iff_of_nodup hholds.distinct (nodup_singleton _)).mpr ?_)
      intro rdata
      rw [hrdatas, mem_singleton]
    obtain ⟨rdata, hrdata, hid⟩ := map_eq_singleton_iff.mp hsingle
    obtain ⟨low, hlow, hlowKey, hlowTtl⟩ := hholds.ttl_mem
    refine ⟨rrset, rdata, rfl, hkey, ?_, ?_, hrdata, hrrType ▸ hid⟩
    · rw [← hholds.owner, ← hown, toAsciiLowercased_eq_iff]
      exact congrArg owner hkey
    · rw [← hlowTtl, hsame low hlow hlowKey]

theorem key_of_stored_soa (hstores : ∀ key, Stores version key (rrsets.lookup key))
    (hsoa : SoleSoa version soa) {key : RrsetKey} {rrset : Rrset}
    (hlook : rrsets.lookup key = some rrset) (htype : key.rrType = RecordType.soa) :
    key = soa.rrsetKey := by
  have hstored := hstores key
  rw [hlook] at hstored
  obtain ⟨hkey, hholds⟩ := hstored
  obtain ⟨record, hrec, hrecordKey, -⟩ := hholds.ttl_mem
  have hrecordKey := hrecordKey.trans hkey
  rw [← hsoa.2.2 record hrec ((congrArg rrType hrecordKey).trans htype), hrecordKey]

/-- One RRset of type SOA, with one record, makes one SOA record in all. -/
theorem total_soaShare_eq_one {soaKey : RrsetKey} {rrset : Rrset}
    (hlook : rrsets.lookup soaKey = some rrset)
    (htype : soaKey.rrType = RecordType.soa) (hlen : rrset.rdatas.length = 1)
    (hsole : ∀ key other, rrsets.lookup key = some other → key.rrType = RecordType.soa →
      key = soaKey) :
    rrsets.total soaShare = 1 := by
  have hothers : (rrsets.erase soaKey).total soaShare = 0 := by
    by_contra hpositive
    obtain ⟨key, other, hother, hshare⟩ :=
      (AList.total_pos_iff _ _).mp (Nat.pos_of_ne_zero hpositive)
    rw [AList.lookup_erase_ite] at hother
    split at hother
    · cases hother
    next hkey =>
      unfold soaShare at hshare
      split at hshare
      next htype => exact hkey (hsole key other hother htype)
      · cases hshare
  rw [rrsets.total_eq_erase _ soaKey, hlook, hothers]
  show soaShare soaKey rrset + 0 = 1
  rw [soaShare, if_pos htype, hlen]

theorem total_soaShare_of_sole (hstores : ∀ key, Stores version key (rrsets.lookup key))
    (hsoa : SoleSoa version soa) (hown : soa.owner.toAsciiLowercased = soa.owner) :
    rrsets.total soaShare = 1 := by
  obtain ⟨rrset, rdata, hlook, hstored⟩ := Stores.exists_soa (hstores soa.rrsetKey) hsoa hown
  exact total_soaShare_eq_one hlook hsoa.2.1 (by rw [hstored.rdatas]; rfl)
    fun key other hother htype => key_of_stored_soa hstores hsoa hother htype

/-- Where the version has a record, the RRset with its key has its data. -/
theorem exists_stored_of_mem {records : List ResourceRecord}
    (hstores : ∀ key, Stores (versionOf records) key (rrsets.lookup key)) {record : ResourceRecord}
    (hrec : record ∈ records) :
    ∃ rrset rdata, rrsets.lookup (rrsetIdentity record) = some rrset ∧ rdata ∈ rrset.rdatas ∧
      canonicalRdataIdentity record.rrType rdata =
        canonicalRdataIdentity record.rrType record.rdata := by
  have hversion : fromRecord record ∈ versionOf records := mem_versionOf.mpr ⟨record, hrec, rfl⟩
  have hstored := hstores (rrsetIdentity record)
  cases hlook : rrsets.lookup (rrsetIdentity record) with
  | none =>
    rw [hlook] at hstored
    exact absurd (rrsetKey_fromRecord record) (hstored _ hversion)
  | some rrset =>
    rw [hlook] at hstored
    obtain ⟨rdata, hrdata, hid⟩ := mem_map.mp ((hstored.2.rdatas _).mpr
      ⟨_, hversion, (rrsetKey_fromRecord record).trans hstored.1.symm, rfl⟩)
    have htype : rrset.rrType = record.rrType := congrArg rrType hstored.1
    rw [htype] at hid
    exact ⟨rrset, rdata, rfl, hrdata, hid⟩

end SoleSoa

section Serving

variable {platform : Platform} {snapshot : ZoneSnapshot platform} {zoneApex : DomainName}
  {qclass : UInt16} {records : List ResourceRecord}

theorem Accepted.sole_soa (h : Accepted snapshot zoneApex qclass records) :
    ∃ soa ∈ records, SoleSoa (versionOf records) (fromRecord soa) ∧ soa.rrType = RecordType.soa ∧
      rrsetIdentity soa = ⟨zoneApex.canonicalKey, RecordType.soa, qclass⟩ ∧
      ∃ serial, soaSerial soa.rdata = .ok serial ∧ snapshot.serial = some serial := by
  obtain ⟨soa, hsoa, htype, hown, honly, hserial⟩ := h.soa
  have hrrType : soa.rrType = RecordType.soa := (isSoa_iff soa).mp htype
  refine ⟨soa, hsoa, ⟨mem_versionOf.mpr ⟨soa, hsoa, rfl⟩, hrrType, ?_⟩, hrrType, ?_, hserial⟩
  · intro key hkey hkeyType
    obtain ⟨record, hrec, rfl⟩ := mem_versionOf.mp hkey
    rw [honly record hrec ((isSoa_iff record).mpr hkeyType)]
  · rw [rrsetIdentity, hown, hrrType, (h.content soa hsoa).cls]

/-- The snapshot gives every record of the RRsets with the time to live it was sent with. -/
def KeepsTtls (keys : RrsetKey → Prop) (snapshot : ZoneSnapshot platform)
    (records : List ResourceRecord) : Prop :=
  ∀ record ∈ records, keys (rrsetIdentity record) →
    ∀ rrset, snapshot.rrsets.lookup (rrsetIdentity record) = some rrset →
      snapshot.recordTtlByOwnerKey record.owner.canonicalKey record.cls record.rrType
      rrset.ttl record.rdata =
        record.ttl

theorem rdataU16_append (front back : List UInt8) (h : 2 ≤ front.length) :
    rdataU16 (front ++ back) = rdataU16 front := by
  match front with
  | first :: second :: rest => rfl

theorem rdataU16_canonicalRdataIdentity (rdata : Rdata) :
    rdataU16 (canonicalRdataIdentity rrsig rdata) = rdataU16 rdata := by
  have hid : canonicalDomainNameRdataIdentity rrsig rdata =
      canonicalFieldsAndNames rdata 18 1 fun last => last == rdata.length := rfl
  rw [canonicalRdataIdentity, hid, canonicalFieldsAndNames]
  split
  · rfl
  next hlong =>
    cases canonicalRdataNames rdata 1 18 with
    | none => rfl
    | some names =>
      dsimp only [Option.bind_eq_bind, Option.bind_some]
      split
      · have htake : 2 ≤ (rdata.take 18).length := by
          rw [length_take]
          omega
        show rdataU16 (rdata.take 18 ++ names.1 ++ rdata.drop names.2) = _
        rw [append_assoc, rdataU16_append _ _ htake, ← rdataU16_append _ (rdata.drop 18) htake,
          take_append_drop]
      · rfl

/-- Records that differ in the case of names in their data have the same time to live. -/
theorem recordTtlByOwnerKey_congr (ownerKey : NameKey) (cls rrType : UInt16) (fallbackTtl : UInt32)
    {left right : Rdata}
    (h : canonicalRdataIdentity rrType left = canonicalRdataIdentity rrType right) :
    snapshot.recordTtlByOwnerKey ownerKey cls rrType fallbackTtl left =
      snapshot.recordTtlByOwnerKey ownerKey cls rrType fallbackTtl right := by
  unfold recordTtlByOwnerKey
  split
  · rfl
  next htype =>
    rw [not_not] at htype
    rw [htype] at h
    rw [← rdataU16_canonicalRdataIdentity left, h, rdataU16_canonicalRdataIdentity]

/-- A record as the snapshot gives it is the record that was sent. -/
theorem Accepted.fromRecord_eq (h : Accepted snapshot zoneApex qclass records)
    {keys : RrsetKey → Prop} (hkeeps : KeepsTtls keys snapshot records)
    {record : ResourceRecord} (hrec : record ∈ records) (hkeys : keys (rrsetIdentity record))
    {rrset : Rrset} (hlook : snapshot.rrsets.lookup (rrsetIdentity record) = some rrset)
    {rdata : Rdata}
    (hrdata : canonicalRdataIdentity record.rrType rdata =
      canonicalRdataIdentity record.rrType record.rdata) :
    fromRecord ⟨rrset.owner, record.rrType, record.cls,
      snapshot.recordTtlByOwnerKey record.owner.canonicalKey record.cls record.rrType
        rrset.ttl rdata, rdata⟩ =
      fromRecord record := by
  have hstored := h.stores (rrsetIdentity record)
  rw [hlook] at hstored
  have hown : rrset.owner.canonicalKey = record.owner.canonicalKey := congrArg owner hstored.1
  rw [recordTtlByOwnerKey_congr _ _ _ _ hrdata, hkeeps record hrec hkeys rrset hlook]
  rw [fromRecord, fromRecord, hrdata, (toAsciiLowercased_eq_iff _ _).mpr hown]

theorem Accepted.stored (h : Accepted snapshot zoneApex qclass records) (key : RrsetKey)
    (rrset : Rrset) (hlook : snapshot.rrsets.lookup key = some rrset) :
    Stores (versionOf records) key (some rrset) := hlook ▸ h.stores key

theorem Accepted.serves (h : Accepted snapshot zoneApex qclass records)
    {source : ResourceRecord → Prop} (hsource : ∀ record ∈ records, ∀ owner ttl,
      owner.canonicalKey = record.owner.canonicalKey →
      source { record with owner := owner, ttl := ttl }) :
    Serves snapshot (servedVersion snapshot) source := by
  refine serves_servedVersion (fun key rrset hlook => (h.stored key rrset hlook).1)
    (fun key rrset hlook => (h.stored key rrset hlook).2.distinct) ?_
  intro key record hrec
  obtain ⟨rrset, hlook, rdata, hrdata, rfl⟩ := mem_transferRrsetRecordsByKey.mp hrec
  obtain ⟨sent, hsent, hkey, rfl⟩ := h.source key rrset hlook rdata hrdata
  have hrrset := (h.stored key rrset hlook).1
  obtain rfl : rrsetIdentity sent = key := hkey.trans hrrset
  exact hsource sent hsent _ _ (congrArg owner hrrset)

/-- RRsets whose times to live are kept are given with the records that were sent. -/
theorem Accepted.agreeOn (h : Accepted snapshot zoneApex qclass records) {keys : RrsetKey → Prop}
    (hkeeps : KeepsTtls keys snapshot records) :
    AgreeOn keys (versionOf records) (servedVersion snapshot) := by
  intro wanted hkeys
  have hwanted :=
    (h.serves fun _ _ _ _ _ => trivial : Serves snapshot _ fun _ => True).mem_iff
      wanted.rrsetKey wanted
  rw [and_iff_left rfl, mem_versionOf] at hwanted
  rw [← hwanted]
  constructor
  · intro hmem
    obtain ⟨record, hrec, rfl⟩ := mem_versionOf.mp hmem
    obtain ⟨rrset, rdata, hlook, hrdata, hid⟩ := exists_stored_of_mem h.stores hrec
    rw [rrsetKey_fromRecord] at hkeys ⊢
    exact ⟨_, mem_transferRrsetRecordsByKey.mpr ⟨rrset, hlook, rdata, hrdata, rfl⟩,
      h.fromRecord_eq hkeeps hrec hkeys hlook hid⟩
  · rintro ⟨given, hgiven, rfl⟩
    obtain ⟨rrset, hlook, rdata, hrdata, hgiven⟩ := mem_transferRrsetRecordsByKey.mp hgiven
    obtain ⟨hkey, hholds⟩ := h.stored _ rrset hlook
    obtain ⟨sent, hsent, hsentKey, hid⟩ := (hholds.rdatas _).mp (mem_map_of_mem hrdata)
    obtain ⟨record, hrec, rfl⟩ := mem_versionOf.mp hsent
    have htype : record.rrType = rrset.rrType := congrArg rrType hsentKey
    rw [← hkey, ← hsentKey, rrsetKey_fromRecord] at hlook hgiven hkeys
    rw [← htype] at hid
    have heq := h.fromRecord_eq hkeeps hrec hkeys hlook hid.symm
    rw [hgiven]
    exact heq.symm ▸ hsent

end Serving

section Checking

variable {platform : Platform} {zoneApex : DomainName} {qclass : UInt16}
  {records : List ResourceRecord} {target updated : ZoneSnapshot platform}

/-- A record of an RRset that is stored for the version stands for a record of the version. -/
theorem represented_of_stored
    (hcontent : ∀ record ∈ records, TransferContent zoneApex qclass record) {key : RrsetKey}
    {rrset : Rrset} (hstored : Stores (versionOf records) key (some rrset))
    (hsource : FromSource (TransferContent zoneApex qclass) rrset) {rdata : Rdata}
    (hrdata : rdata ∈ rrset.rdatas) (ttl : UInt32) :
    ∃ sent ∈ records, sameOwner ⟨rrset.owner, rrset.rrType, rrset.cls, ttl, rdata⟩ sent ∧
      rrset.rrType = sent.rrType ∧
      (rrset.rrType = dname ∨ rrset.rrType = cname →
        aliasTarget ⟨rrset.owner, rrset.rrType, rrset.cls, ttl, rdata⟩ = aliasTarget sent) := by
  obtain ⟨hkey, hholds⟩ := hstored
  obtain ⟨found, hfound, hfoundKey, hid⟩ := (hholds.rdatas _).mp (mem_map_of_mem hrdata)
  obtain ⟨sent, hsent, rfl⟩ := mem_versionOf.mp hfound
  have hsentType : sent.rrType = rrset.rrType := congrArg rrType hfoundKey
  have hsentOwner : sent.owner.toAsciiLowercased.canonicalKey = rrset.owner.canonicalKey :=
    congrArg owner hfoundKey
  rw [canonicalKey_toAsciiLowercased] at hsentOwner
  refine ⟨sent, hsent, (toAsciiLowercased_eq_iff _ _).mpr hsentOwner.symm, hsentType.symm, ?_⟩
  intro halias
  obtain ⟨written, hwritten, hwrittenKey, hwrittenRdata⟩ := hsource rdata hrdata
  have hwrittenType : written.rrType = rrset.rrType := congrArg rrType hwrittenKey
  have hsame : aliasTarget written = aliasTarget sent := by
    obtain ⟨name, hname, hfits⟩ := hwritten.target (hwrittenType.symm ▸ halias)
    obtain ⟨other, hother, hotherFits⟩ := (hcontent sent hsent).target (hsentType.symm ▸ halias)
    replace hid : canonicalRdataIdentity sent.rrType sent.rdata = _ := hid
    rw [← hwrittenRdata, hname, hother, canonicalRdataIdentity_alias hfits halias, hsentType,
      canonicalRdataIdentity_alias hotherFits halias] at hid
    have hlower := toWire_inj (by rw [wireLen_toAsciiLowercased]; exact hotherFits) hid
    rw [aliasTarget, aliasTarget, hname, hother, fromUncompressedWire_toWire hfits,
      fromUncompressedWire_toWire hotherFits, Option.map_some, Option.map_some,
      (toAsciiLowercased_eq_iff _ _).mp hlower.symm]
  rw [← hsame, aliasTarget, aliasTarget, hwrittenRdata]

/-- The checks of an incremental transfer accept a snapshot that stores an accepted version. -/
theorem validateIncrementalZone_of_stores (htarget : Accepted target zoneApex qclass records)
    (hstores : ∀ key, Stores (versionOf records) key (updated.rrsets.lookup key))
    (hsource : ∀ key rrset, updated.rrsets.lookup key = some rrset →
      FromSource (TransferContent zoneApex qclass) rrset)
    (hcount : updated.soaRecordCount = updated.rrsets.total soaShare) (delta : IxfrDelta) :
    validateIncrementalZone zoneApex qclass updated delta = .ok () := by
  obtain ⟨soa, hsoa, hsole, htype, hsoaKey, -⟩ := htarget.sole_soa
  have hown : (fromRecord soa).owner.toAsciiLowercased = (fromRecord soa).owner :=
    toAsciiLowercased_idem soa.owner
  have hlen : (updated.transferRrsetRecordsByKey ⟨zoneApex.canonicalKey, RecordType.soa,
      qclass⟩).length = 1 := by
    obtain ⟨rrset, rdata, hlook, hstored⟩ := Stores.exists_soa (hstores _) hsole hown
    rw [rrsetKey_fromRecord, hsoaKey] at hlook
    rw [transferRrsetRecordsByKey, hlook]
    rw [length_map, hstored.rdatas]
    rfl
  have hns : (updated.transferRrsetRecordsByKey ⟨zoneApex.canonicalKey, ns, qclass⟩).isEmpty =
      false := by
    obtain ⟨ns, hmem, hnsType, hnsOwner⟩ := htarget.ns
    obtain ⟨rrset, rdata, hlook, hrdata, -⟩ := exists_stored_of_mem hstores hmem
    rw [rrsetIdentity, hnsOwner, hnsType, (htarget.content ns hmem).cls] at hlook
    rw [transferRrsetRecordsByKey, hlook]
    rw [isEmpty_map, isEmpty_eq_false_iff_exists_mem]
    exact ⟨rdata, hrdata⟩
  have hcoexist : Coexist zoneApex
      ((affectedOwners delta).flatMap updated.transferRecordsAtNameKey) := by
    refine htarget.coexist.of_represented fun record hrec => ?_
    obtain ⟨owner, -, hrec⟩ := mem_flatMap.mp hrec
    obtain ⟨rrset, hrrset, hrec⟩ := mem_flatMap.mp hrec
    obtain ⟨entry, hentry, rfl⟩ := mem_map.mp hrrset
    obtain ⟨hstored, hentryOwner⟩ := mem_filter.mp hentry
    have hlook : updated.rrsets.lookup entry.1 = some entry.2 := AList.mem_lookup_iff.mpr hstored
    obtain ⟨rdata, hrdata, rfl⟩ := mem_map.mp hrec
    exact represented_of_stored htarget.content (hlook ▸ hstores entry.1)
      (hsource _ _ hlook) hrdata _
  unfold validateIncrementalZone
  rw [if_neg (by rw [hlen, hcount, total_soaShare_of_sole hstores hsole hown]; simp),
    if_neg (by rw [hns]; simp), (validateCnameAndDnameCoexistence_ok_iff _ _).mpr hcoexist]
  rfl

end Checking

end BoronDns
