import BoronDns.ValidatedZone
import BoronDns.ZoneCache

/-!
What a checkpoint gives back. The records of a validated snapshot are gathered into
the RRsets they came from, with the lowest of the times to live that the snapshot gives
them; so only an RRset of signatures can come back with another time to live.
-/

namespace BoronDns

open List DomainName Except RrsetKey
open ZoneSnapshot (persistenceRecords recordsOfRrset soaShare)
open AList (mem_lookup_iff)

section Relations

/-- Two RRsets that differ at most in their time to live. -/
def SameButTtl (left right : Rrset) : Prop := left = { right with ttl := left.ttl }

variable {zoneApex other : DomainName} {qclass : UInt16} {left right : RrsetMap} {serial : UInt32}

/-- Two RRsets that are the same, or of signatures and differ at most in their time to live. -/
def SameButSignatureTtl (left right : Rrset) : Prop :=
  SameButTtl left right ∧ (right.rrType ≠ RecordType.rrsig → left.ttl = right.ttl)

theorem SameButSignatureTtl.refl (rrset : Rrset) : SameButSignatureTtl rrset rrset :=
  ⟨rfl, fun _ => rfl⟩

theorem SameButSignatureTtl.of_both {a b c : Rrset} (h : SameButSignatureTtl a c)
    (h' : SameButSignatureTtl b c) : SameButSignatureTtl a b := by
  obtain ⟨hsame, httl⟩ := h
  obtain ⟨hsame', httl'⟩ := h'
  have htype : b.rrType = c.rrType := by rw [hsame']
  rw [SameButTtl] at hsame hsame'
  refine ⟨?_, fun hb => (httl (htype ▸ hb)).trans (httl' (htype ▸ hb)).symm⟩
  rw [SameButTtl, hsame, hsame']

theorem SameButTtl.key {a b : Rrset} (h : SameButTtl a b) : a.key = b.key := by
  rw [h]
  rfl

theorem StoredRrset.congr {a b : Rrset} (h : StoredRrset zoneApex qclass b)
    (hsame : SameButTtl a b) : StoredRrset zoneApex qclass a := by
  rw [hsame]
  refine ⟨h.owner, h.nonempty, h.distinct, fun record hrec => ?_⟩
  obtain ⟨rdata, hrdata, rfl⟩ := mem_records.mp hrec
  exact (h.content _ (mem_records.mpr ⟨rdata, hrdata, rfl⟩)).of_owner rfl _

/-- RRsets that are the same but for times to live, key by key. -/
def SameRrsets (left right : RrsetMap) : Prop :=
  ∀ key, Option.Rel SameButTtl (left.lookup key) (right.lookup key)

theorem SameRrsets.of_left (h : SameRrsets left right) {key : RrsetKey} {a : Rrset}
    (ha : left.lookup key = some a) : ∃ b, right.lookup key = some b ∧ SameButTtl a b := by
  have hkey := h key
  rw [ha] at hkey
  cases hb : right.lookup key with
  | none =>
    rw [hb] at hkey
    cases hkey
  | some b =>
    rw [hb] at hkey
    cases hkey with
    | some hsame => exact ⟨b, rfl, hsame⟩

theorem SameRrsets.of_right (h : SameRrsets left right) {key : RrsetKey} {b : Rrset}
    (hb : right.lookup key = some b) : ∃ a, left.lookup key = some a ∧ SameButTtl a b := by
  have hkey := h key
  rw [hb] at hkey
  cases ha : left.lookup key with
  | none =>
    rw [ha] at hkey
    cases hkey
  | some a =>
    rw [ha] at hkey
    cases hkey with
    | some hsame => exact ⟨a, rfl, hsame⟩

/-- Whether RRsets passed the checks does not depend on times to live. -/
theorem ZoneContent.congr (h : ZoneContent zoneApex qclass right serial)
    (hsame : SameRrsets left right) : ZoneContent zoneApex qclass left serial := by
  refine ⟨?_, ?_, ?_, ?_, ?_, ?_⟩
  · intro key a ha
    obtain ⟨b, hb, hab⟩ := hsame.of_left ha
    rw [hab.key, h.keysMatch key b hb]
  · intro key a ha
    obtain ⟨b, hb, hab⟩ := hsame.of_left ha
    exact (h.stored key b hb).congr hab
  · obtain ⟨b, rdata, hb, hrdatas, hserial⟩ := h.soa
    obtain ⟨a, ha, hab⟩ := hsame.of_right hb
    refine ⟨a, rdata, ha, ?_, hserial⟩
    rw [hab]
    exact hrdatas
  · intro key a ha htype
    obtain ⟨b, hb, -⟩ := hsame.of_left ha
    exact h.soleSoa key b hb htype
  · obtain ⟨b, hb⟩ := h.ns
    obtain ⟨a, ha, -⟩ := hsame.of_right hb
    exact ⟨a, ha⟩
  · refine h.coexist.of_represented fun record hrec => ?_
    obtain ⟨key, a, ha, hrec⟩ := mem_mapRecords.mp hrec
    obtain ⟨rdata, hrdata, rfl⟩ := mem_records.mp hrec
    obtain ⟨b, hb, hab⟩ := hsame.of_left ha
    rw [hab] at hrdata ⊢
    exact ⟨_, mem_mapRecords.mpr ⟨key, b, hb, mem_records.mpr ⟨rdata, hrdata, rfl⟩⟩, rfl, rfl,
      fun _ => rfl⟩

theorem TransferContent.congr_apex {record : ResourceRecord}
    (h : TransferContent zoneApex qclass record)
    (hapex : zoneApex.canonicalKey = other.canonicalKey) : TransferContent other qclass record := by
  refine ⟨h.cls, ?_, h.ownerFits, h.rdataFits, h.namesFit, h.target, h.soa⟩
  have hzone : record.owner.isEqualOrSubdomainOf other =
      record.owner.isEqualOrSubdomainOf zoneApex := by
    rw [Bool.eq_iff_iff, isEqualOrSubdomainOf_iff, isEqualOrSubdomainOf_iff,
      (canonicalKey_inj _ _).mp hapex]
  have hscope := h.scope
  unfold validateRecordScope at hscope ⊢
  rw [hzone]
  exact hscope

theorem Coexist.congr_apex {records : List ResourceRecord} (h : Coexist zoneApex records)
    (hapex : zoneApex.canonicalKey = other.canonicalKey) : Coexist other records := by
  refine ⟨h.readable, h.single, h.dnameCname, fun r hr s hs hown hdname hns => ?_, h.cnameOther⟩
  rw [h.dnameNs r hr s hs hown hdname hns, (toAsciiLowercased_eq_iff _ _).mpr hapex]

theorem ZoneContent.congr_apex (h : ZoneContent zoneApex qclass right serial)
    (hapex : zoneApex.canonicalKey = other.canonicalKey) :
    ZoneContent other qclass right serial := by
  have hkey : apexSoaKey zoneApex qclass = apexSoaKey other qclass := by
    rw [apexSoaKey, apexSoaKey, hapex]
  refine ⟨h.keysMatch, fun key rrset hlook => ?_, hkey ▸ h.soa, hkey ▸ h.soleSoa, hapex ▸ h.ns,
    h.coexist.congr_apex hapex⟩
  obtain ⟨hown, hnonempty, hdist, hcontent⟩ := h.stored key rrset hlook
  exact ⟨hown, hnonempty, hdist,
    fun record hrec => (hcontent record hrec).congr_apex hapex⟩

theorem ZoneContent.total_soaShare (h : ZoneContent zoneApex qclass right serial) :
    right.total soaShare = 1 := by
  obtain ⟨rrset, rdata, hlook, hrdatas, -⟩ := h.soa
  exact total_soaShare_eq_one hlook rfl (by rw [hrdatas]; rfl) h.soleSoa

end Relations

section Gathering

/-- The lowest of the times to live of a list that is not empty. -/
def lowestTtl : List UInt32 → UInt32
  | [] => 0
  | first :: rest => rest.foldl min first

theorem lowestTtl_append {ttls : List UInt32} (h : ttls ≠ []) (last : UInt32) :
    lowestTtl (ttls ++ [last]) = min (lowestTtl ttls) last := by
  cases ttls with
  | nil => exact absurd rfl h
  | cons first rest =>
    show (rest ++ [last]).foldl min first = _
    rw [foldl_append]
    rfl

/-- The RRset has the owner, type and class of the record. -/
def Gathers (rrset : Rrset) (record : ResourceRecord) : Prop :=
  rrset.owner = record.owner ∧ rrset.rrType = record.rrType ∧ rrset.cls = record.cls

variable {rrsets : List Rrset} {record : ResourceRecord}

theorem gatherRecord_new (h : ∀ rrset ∈ rrsets, ¬ Gathers rrset record) :
    gatherRecord rrsets record = rrsets ++
      [⟨record.owner, record.rrType, record.cls, record.ttl, [record.rdata]⟩] := by
  induction rrsets with
  | nil => rfl
  | cons first rest ih =>
    have hfirst : ¬ (first.owner = record.owner ∧ first.rrType = record.rrType ∧
        first.cls = record.cls) :=
      h first (mem_cons_self ..)
    rw [gatherRecord, if_neg hfirst, ih fun rrset hrrset => h rrset (mem_cons_of_mem _ hrrset)]
    rfl

theorem gatherRecord_last (h : ∀ rrset ∈ rrsets, ¬ Gathers rrset record) {last : Rrset}
    (hlast : Gathers last record) :
    gatherRecord (rrsets ++ [last]) record = rrsets ++ [mergeRecord last record] := by
  induction rrsets with
  | nil =>
    rw [nil_append, gatherRecord, if_pos (show last.owner = _ ∧ _ from hlast)]
    rfl
  | cons first rest ih =>
    have hfirst : ¬ (first.owner = record.owner ∧ first.rrType = record.rrType ∧
        first.cls = record.cls) :=
      h first (mem_cons_self ..)
    rw [cons_append, gatherRecord, if_neg hfirst,
      ih fun rrset hrrset => h rrset (mem_cons_of_mem _ hrrset)]
    rfl

/-- The records of one RRset, behind RRsets with other keys, are gathered into it. -/
theorem foldl_gatherRecord_block {owner : DomainName} {rrType cls : UInt16} {ttlOf : Rdata → UInt32}
    (hothers : ∀ rrset ∈ rrsets, ¬ (rrset.owner = owner ∧ rrset.rrType = rrType ∧ rrset.cls = cls))
    {rdatas : List Rdata} (hnonempty : rdatas ≠ [])
    (hdist : (rdatas.map (canonicalRdataIdentity rrType)).Nodup) :
    (rdatas.map fun rdata => (⟨owner, rrType, cls, ttlOf rdata, rdata⟩ : ResourceRecord)).foldl
      gatherRecord rrsets =
      rrsets ++ [⟨owner, rrType, cls, lowestTtl (rdatas.map ttlOf), rdatas⟩] := by
  induction rdatas using List.reverseRecOn with
  | nil => exact absurd rfl hnonempty
  | append_singleton rdatas last ih =>
    rw [map_append, foldl_append]
    by_cases hempty : rdatas = []
    · rw [hempty]
      exact gatherRecord_new hothers
    rw [map_append, nodup_append] at hdist
    have hnew : ¬ (rdatas.any fun rdata => canonicalRdataIdentity rrType rdata =
        canonicalRdataIdentity rrType last) := by
      rw [any_eq_true]
      rintro ⟨rdata, hrdata, hsame⟩
      exact hdist.2.2 _ (mem_map_of_mem hrdata) _ (mem_singleton_self _)
        (of_decide_eq_true hsame)
    rw [ih hempty hdist.1]
    show gatherRecord (rrsets ++ [_]) ⟨owner, rrType, cls, ttlOf last, last⟩ = _
    rw [gatherRecord_last hothers ⟨rfl, rfl, rfl⟩, mergeRecord]
    rw [if_neg hnew, map_append]
    show _ = rrsets ++ [⟨owner, rrType, cls, lowestTtl (rdatas.map ttlOf ++ [ttlOf last]),
      rdatas ++ [last]⟩]
    rw [lowestTtl_append (by simpa using hempty)]

end Gathering

section Records

variable {platform : Platform} {snapshot : ZoneSnapshot platform} {zoneApex : DomainName}
  {qclass : UInt16} {serial : UInt32}

/-- An RRset as it comes back from a checkpoint. -/
def settledRrset (snapshot : ZoneSnapshot platform) (ownerKey : NameKey) (rrset : Rrset) : Rrset :=
  { rrset with
    ttl :=
      lowestTtl
        (rrset.rdatas.map (snapshot.recordTtlByOwnerKey ownerKey rrset.cls rrset.rrType rrset.ttl))
        }

theorem lowestTtl_of_forall {ttls : List UInt32} {ttl : UInt32} (h : ∀ other ∈ ttls, other = ttl)
    (hne : ttls ≠ []) : lowestTtl ttls = ttl := by
  obtain ⟨first, rest, rfl⟩ := exists_cons_of_ne_nil hne
  rw [forall_mem_cons] at h
  refine List.foldlRecOn rest min (motive := fun low => low = ttl) h.1 fun low hlow other hother =>
    ?_
  rw [hlow, h.2 other hother]
  exact ite_self ttl

/-- Only signatures come back with another time to live. -/
theorem sameButSignatureTtl_settledRrset (ownerKey : NameKey) {rrset : Rrset}
    (h : rrset.rdatas ≠ []) : SameButSignatureTtl (settledRrset snapshot ownerKey rrset) rrset := by
  refine ⟨rfl, fun htype => lowestTtl_of_forall (forall_mem_map.mpr fun rdata _ => ?_)
    (by simpa using h)⟩
  exact if_pos htype

theorem ZoneContent.normalize_persistenceRecords
    (h : ZoneContent zoneApex qclass snapshot.rrsets serial) :
    snapshot.persistenceRecords.map normalizeRecordOwner = snapshot.persistenceRecords := by
  rw [persistenceRecords, map_flatMap]
  refine flatMap_congr fun entry hentry => ?_
  rw [recordsOfRrset, map_map]
  refine map_congr_left fun rdata _ => ?_
  rw [Function.comp_apply, normalizeRecordOwner]
  rw [(h.stored entry.1 entry.2 (mem_lookup_iff.mpr hentry)).owner]

theorem rrsetsFromRecords_eq_foldl (records : List ResourceRecord) :
    rrsetsFromRecords records = (records.map normalizeRecordOwner).foldl gatherRecord [] := by
  rw [rrsetsFromRecords, foldl_map]

theorem foldl_gatherRecord_entries {entries : List (Σ _ : RrsetKey, Rrset)}
    (hstored : ∀ entry ∈ entries, entry.2.key = entry.1 ∧ StoredRrset zoneApex qclass entry.2)
    (hnodup : (entries.map Sigma.fst).Nodup) :
    (entries.flatMap fun entry => snapshot.recordsOfRrset entry.1.owner entry.2).foldl gatherRecord
      [] = entries.map fun entry => settledRrset snapshot entry.1.owner entry.2 := by
  induction entries using List.reverseRecOn with
  | nil => rfl
  | append_singleton entries last ih =>
    rw [map_append, nodup_append] at hnodup
    obtain ⟨hlastKey, hlast⟩ := hstored last (mem_append_right _ (mem_singleton_self _))
    rw [flatMap_append, foldl_append,
      ih (fun entry hentry => hstored entry (mem_append_left _ hentry))
      hnodup.1, map_append, flatMap_singleton]
    refine foldl_gatherRecord_block ?_ hlast.nonempty hlast.distinct
    rintro rrset hrrset ⟨hown, htype, hcls⟩
    obtain ⟨entry, hentry, rfl⟩ := mem_map.mp hrrset
    obtain ⟨hkey, -⟩ := hstored entry (mem_append_left _ hentry)
    have hsame : entry.1 = last.1 := by
      rw [← hkey, ← hlastKey, Rrset.key, Rrset.key, RrsetKey.mk.injEq]
      exact ⟨congrArg DomainName.canonicalKey hown, htype, hcls⟩
    exact hnodup.2.2 _ (mem_map_of_mem hentry) _ (mem_singleton_self _) hsame

/-- The records of a snapshot are gathered into its RRsets again. -/
theorem ZoneContent.rrsetsFromRecords_persistenceRecords
    (h : ZoneContent zoneApex qclass snapshot.rrsets serial) :
    rrsetsFromRecords snapshot.persistenceRecords =
      snapshot.rrsets.entries.map fun entry => settledRrset snapshot entry.1.owner entry.2 := by
  rw [rrsetsFromRecords_eq_foldl, h.normalize_persistenceRecords, persistenceRecords]
  have hstored : ∀ entry ∈ snapshot.rrsets.entries, entry.2.key = entry.1 ∧
      StoredRrset zoneApex qclass entry.2 := by
    intro entry hentry
    have hlook : snapshot.rrsets.lookup entry.1 = some entry.2 := mem_lookup_iff.mpr hentry
    exact ⟨h.keysMatch _ _ hlook, h.stored _ _ hlook⟩
  exact foldl_gatherRecord_entries hstored snapshot.rrsets.nodupKeys

theorem ZoneContent.lookup_settled (h : ZoneContent zoneApex qclass snapshot.rrsets serial)
    (key : RrsetKey) : (rrsetsByKey (rrsetsFromRecords snapshot.persistenceRecords)).lookup key =
      (snapshot.rrsets.lookup key).map (settledRrset snapshot key.owner) := by
  have hkeys : (rrsetsFromRecords snapshot.persistenceRecords).map Rrset.key =
      snapshot.rrsets.keys := by
    rw [h.rrsetsFromRecords_persistenceRecords, map_map]
    refine map_congr_left fun entry hentry => ?_
    exact h.keysMatch entry.1 entry.2 (mem_lookup_iff.mpr hentry)
  have hnodup : ((rrsetsFromRecords snapshot.persistenceRecords).map Rrset.key).Nodup := by
    rw [hkeys]
    exact snapshot.rrsets.nodupKeys
  refine Option.ext fun rrset => ?_
  rw [ZoneSnapshot.lookup_rrsetsByKey hnodup, h.rrsetsFromRecords_persistenceRecords,
    Option.map_eq_some_iff]
  constructor
  · rintro ⟨hmem, hkey⟩
    obtain ⟨entry, hentry, rfl⟩ := mem_map.mp hmem
    have hlook : snapshot.rrsets.lookup entry.1 = some entry.2 := mem_lookup_iff.mpr hentry
    obtain rfl : entry.1 = key := (h.keysMatch _ _ hlook).symm.trans hkey
    exact ⟨entry.2, hlook, rfl⟩
  · rintro ⟨stored, hlook, rfl⟩
    exact ⟨mem_map.mpr ⟨⟨key, stored⟩, mem_lookup_iff.mp hlook, rfl⟩,
      h.keysMatch key stored hlook⟩

theorem mem_persistenceRecords {record : ResourceRecord} : record ∈ snapshot.persistenceRecords ↔
      ∃ key rrset, snapshot.rrsets.lookup key = some rrset ∧
      record ∈ snapshot.recordsOfRrset key.owner rrset := by
  rw [persistenceRecords, mem_flatMap]
  constructor
  · rintro ⟨entry, hentry, hrec⟩
    exact ⟨entry.1, entry.2, mem_lookup_iff.mpr hentry, hrec⟩
  · rintro ⟨key, rrset, hlook, hrec⟩
    exact ⟨⟨key, rrset⟩, mem_lookup_iff.mp hlook, hrec⟩

/-- The records that go into a checkpoint passed the checks. -/
theorem ZoneContent.content_persistenceRecords
    (h : ZoneContent zoneApex qclass snapshot.rrsets serial) :
    ∀ record ∈ snapshot.persistenceRecords, TransferContent zoneApex qclass record := by
  intro record hrec
  obtain ⟨key, rrset, hlook, hrec⟩ := mem_persistenceRecords.mp hrec
  obtain ⟨rdata, hrdata, rfl⟩ := mem_map.mp hrec
  exact ((h.stored key rrset hlook).content _ (mem_records.mpr ⟨rdata, hrdata, rfl⟩)).of_owner rfl
    _

theorem ZoneContent.soa_persistenceRecords
    (h : ZoneContent zoneApex qclass snapshot.rrsets serial) :
    ∃ soa, snapshot.persistenceRecords.filter (fun record => record.rrType = RecordType.soa) =
      [soa] ∧
      soa.owner.canonicalKey = zoneApex.canonicalKey ∧ soaSerial soa.rdata = .ok serial := by
  have hlen : (snapshot.persistenceRecords.filter fun record => record.rrType =
      RecordType.soa).length = 1 := by
    rw [← h.total_soaShare, persistenceRecords, filter_flatMap, length_flatMap, AList.total]
    refine congrArg List.sum (map_congr_left fun entry hentry => ?_)
    have htype : entry.1.rrType = entry.2.rrType :=
      congrArg rrType (h.keysMatch entry.1 entry.2 (mem_lookup_iff.mpr hentry)).symm
    rw [soaShare, htype, recordsOfRrset, filter_map, length_map]
    split
    next hsoa => simp [hsoa, Function.comp_def]
    next hsoa => simp [hsoa, Function.comp_def]
  obtain ⟨soa, hsoa⟩ := length_eq_one_iff.mp hlen
  obtain ⟨hmem, htype⟩ := mem_filter.mp (hsoa ▸ mem_singleton_self soa)
  obtain ⟨key, rrset, hlook, hrec⟩ := mem_persistenceRecords.mp hmem
  obtain ⟨rdata, hrdata, rfl⟩ := mem_map.mp hrec
  have hrrType : key.rrType = RecordType.soa := by
    rw [← h.keysMatch key rrset hlook]
    exact of_decide_eq_true htype
  obtain rfl := h.soleSoa key rrset hlook hrrType
  obtain ⟨found, only, hfound, honly, hserial⟩ := h.soa
  obtain rfl := Option.some.inj (hlook.symm.trans hfound)
  rw [honly, mem_singleton] at hrdata
  exact ⟨_, hsoa, congrArg owner (h.keysMatch _ _ hlook), hrdata ▸ hserial⟩

theorem ZoneContent.validateZoneRecordSet (h : ZoneContent zoneApex qclass snapshot.rrsets serial) :
    validateZoneRecordSet zoneApex snapshot.persistenceRecords = .ok () := by
  obtain ⟨soa, hsoa, hown, -⟩ := h.soa_persistenceRecords
  have hexact : validateExactApexSoa zoneApex snapshot.persistenceRecords = .ok () := by
    rw [validateExactApexSoa, hsoa]
    dsimp only
    rw [if_pos ((toAsciiLowercased_eq_iff _ _).mpr hown)]
  have hns : validateApexNs zoneApex snapshot.persistenceRecords = .ok () := by
    obtain ⟨rrset, hlook⟩ := h.ns
    have hkey := h.keysMatch _ _ hlook
    obtain ⟨rdata, hrdata⟩ := exists_mem_of_ne_nil _ (h.stored _ _ hlook).nonempty
    rw [validateApexNs, if_pos]
    refine any_eq_true.mpr ⟨_, mem_persistenceRecords.mpr ⟨_, rrset, hlook,
      mem_map_of_mem hrdata⟩, ?_⟩
    exact decide_eq_true ⟨(toAsciiLowercased_eq_iff _ _).mpr (congrArg owner hkey),
      congrArg rrType hkey⟩
  have hcoexist : Coexist zoneApex snapshot.persistenceRecords := by
    refine h.coexist.of_represented fun record hrec => ?_
    obtain ⟨key, rrset, hlook, hrec⟩ := mem_persistenceRecords.mp hrec
    obtain ⟨rdata, hrdata, rfl⟩ := mem_map.mp hrec
    exact ⟨_, mem_mapRecords.mpr ⟨key, rrset, hlook, mem_records.mpr ⟨rdata, hrdata, rfl⟩⟩, rfl,
      rfl, fun _ => rfl⟩
  rw [BoronDns.validateZoneRecordSet, hexact, ok_bind_eq, hns, ok_bind_eq,
    (validateCnameAndDnameCoexistence_ok_iff _ _).mpr hcoexist]

/-- The snapshot that a checkpoint of a validated snapshot gives. -/
def settledSnapshot (identity : ℕ) (origin : DomainName) (snapshot : ZoneSnapshot platform) :
    ZoneSnapshot platform :=
  .active identity origin.toAsciiLowercased snapshot.serial
    (rrsetsFromRecords snapshot.persistenceRecords)

/-- The checks of a checkpoint accept the records of a validated snapshot. -/
theorem validatedPersistedZoneSnapshot_of_content
    (h : ZoneContent zoneApex qclass snapshot.rrsets serial)
    (hserial : snapshot.serial = some serial) (identity : ℕ) :
    validatedPersistedZoneSnapshot identity zoneApex qclass snapshot.serial
      snapshot.persistenceRecords = .ok (settledSnapshot identity zoneApex snapshot) := by
  obtain ⟨soa, hsoa, hown, hsoaSerial⟩ := h.soa_persistenceRecords
  have hscopes : validateRecordScopes zoneApex qclass snapshot.persistenceRecords = .ok () :=
    forM_eq_ok fun record hrec => (h.content_persistenceRecords record hrec).scope
  have hfind : snapshot.persistenceRecords.find? (fun record =>
      record.rrType == RecordType.soa && record.owner.canonicalKey == zoneApex.canonicalKey) =
          some soa := by
    have hfilter : snapshot.persistenceRecords.filter (fun record =>
        record.rrType == RecordType.soa && record.owner.canonicalKey == zoneApex.canonicalKey) =
            [soa] := by
      have hboth :=
        congrArg (List.filter fun record => record.owner.canonicalKey == zoneApex.canonicalKey) hsoa
      rw [filter_filter, filter_singleton, hown, beq_self_eq_true] at hboth
      rw [← show _ = [soa] from hboth]
      refine filter_congr fun record _ => ?_
      rw [Bool.and_comm, Bool.beq_eq_decide_eq record.rrType]
    rw [← List.head?_filter, hfilter]
    rfl
  rw [validatedPersistedZoneSnapshot, hscopes, ok_bind_eq]
  dsimp only
  rw [h.normalize_persistenceRecords, h.validateZoneRecordSet, ok_bind_eq, hfind]
  dsimp only
  rw [hsoaSerial, ok_bind_eq, if_neg (not_not.mpr hserial), settledSnapshot, hserial]

end Records

end BoronDns
