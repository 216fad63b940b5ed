import BoronDns.StoredVersion

/-!
An incremental transfer against a full one. A chain of difference sequences leads from
the records of one full transfer to those of another. The incremental transfer accepts
it and leaves what the second full transfer leaves exactly when the chain also leads
there from the records as the snapshot gives them, in the RRsets it touches. Where the
snapshot keeps the times to live of those RRsets, it does.
-/

namespace BoronDns

open List Option ZoneSnapshot RrsetKey RecordType
open RecordKey (fromRecord)
open Except (ok_bind_eq bind_eq_ok_iff)

variable {version final : ZoneVersion} {sequences : List IxfrDeltaSequence} {finalSoa : RecordKey}
  {oldSerial newSerial : UInt32} {rrset : Rrset} {record outerSoa currentSoa : ResourceRecord}

section Answers

variable {zoneApex : DomainName} {qclass : UInt16}

/-- The answers of an incremental response: the final SOA, a chain of difference sequences
from the one set of records to the other, and the final SOA again. -/
inductive DifferenceAnswers (zoneApex : DomainName) (qclass : UInt16)
    (records targetRecords : List ResourceRecord)
    (sequences : List IxfrDeltaSequence) : List ResourceRecord → Prop
  | mk (soa outerSoa terminal : ResourceRecord) (hsoa : soa ∈ records) (htype : isSoa soa = true)
      (hterminal : fromRecord terminal = fromRecord outerSoa)
      (hchain : DeltaChain zoneApex qclass (fromRecord outerSoa) (versionOf records)
        (fromRecord soa) sequences (versionOf targetRecords)) :
      DifferenceAnswers zoneApex qclass records targetRecords sequences
        (outerSoa :: (sequences.flatMap IxfrDeltaSequence.records ++ [terminal]))

/-- Names in the data of one record are not written in two cases. -/
def SpelledAlike (left right : List ResourceRecord) : Prop :=
  ∀ a ∈ left, ∀ b ∈ right, rrsetIdentity a = rrsetIdentity b →
    canonicalRdataIdentity a.rrType a.rdata = canonicalRdataIdentity b.rrType b.rdata →
    a.rdata = b.rdata

theorem DeltaChain.final_soa {soa : RecordKey}
    (h : DeltaChain zoneApex qclass finalSoa version soa sequences final)
    (hmem : soa ∈ version) (htype : soa.rrType = RecordType.soa) :
    finalSoa ∈ final ∧ finalSoa.rrType = RecordType.soa := by
  induction h with
  | nil => exact ⟨hmem, htype⟩
  | cons delta hfinal hold hdeletes hsoas hothers hnew hrest ih =>
    refine ih ?_ ?_
    · exact mem_addRecords.mpr (.inr ⟨delta.newSoa, mem_cons_self .., rfl⟩)
    · exact (isSoa_iff _).mp hsoas.2

theorem DeltaChain.newSoa_type {soa : RecordKey}
    (h : DeltaChain zoneApex qclass finalSoa version soa sequences final) :
    ∀ delta ∈ sequences, delta.newSoa.rrType = RecordType.soa := by
  induction h with
  | nil => simp
  | cons delta hfinal hold hdeletes hsoas hothers hnew hrest ih =>
    intro other hother
    rcases mem_cons.mp hother with rfl | hrest
    · exact (isSoa_iff _).mp hsoas.2
    · exact ih other hrest

theorem validateCurrentSoa_ok {serial : UInt32}
    (hkey : rrsetIdentity record = ⟨zoneApex.canonicalKey, soa, qclass⟩)
    (hserial : soaSerial record.rdata = .ok serial) :
    validateCurrentSoa record zoneApex qclass = .ok () := by
  have hown : record.owner.toAsciiLowercased = zoneApex.toAsciiLowercased :=
    (DomainName.toAsciiLowercased_eq_iff _ _).mpr (congrArg owner hkey)
  have htype : record.rrType = soa := congrArg rrType hkey
  have hcls : record.cls = qclass := congrArg cls hkey
  rw [validateCurrentSoa, if_neg (by simp [hown, htype, hcls]), hserial]
  rfl

/-- A response with a chain of sequences to the final SOA is read as that chain. -/
theorem parseIxfrIncrementalDeltaParts_of_chain {soa terminal : ResourceRecord}
    (hsoaKey : rrsetIdentity currentSoa = ⟨zoneApex.canonicalKey, RecordType.soa, qclass⟩)
    (houterKey : rrsetIdentity outerSoa = ⟨zoneApex.canonicalKey, RecordType.soa, qclass⟩)
    (hold : soaSerial currentSoa.rdata = .ok oldSerial)
    (hnew : soaSerial outerSoa.rdata = .ok newSerial)
    (hforward : newSerial - oldSerial ≠ 0 ∧ newSerial - oldSerial < 0x80000000)
    (hcontent : ∀ record ∈ outerSoa :: (sequences.flatMap IxfrDeltaSequence.records ++ [terminal]),
      TransferContent zoneApex qclass record) (hcur : fromRecord currentSoa = fromRecord soa)
    (hcurrentContent : TransferContent zoneApex qclass currentSoa)
    (hterminal : fromRecord terminal = fromRecord outerSoa)
    (hchain : DeltaChain zoneApex qclass (fromRecord outerSoa) version
      (fromRecord soa) sequences final) :
    parseIxfrIncrementalDeltaParts zoneApex qclass currentSoa
        (outerSoa :: (sequences.flatMap IxfrDeltaSequence.records ++ [terminal])) =
      .ok (⟨oldSerial, newSerial, sequences⟩, true) := by
  have houterType : outerSoa.rrType = RecordType.soa := congrArg rrType houterKey
  have hnewContent : ∀ delta ∈ sequences, TransferContent zoneApex qclass delta.newSoa := by
    intro delta hdelta
    refine hcontent delta.newSoa ?_
    refine mem_cons_of_mem _ (mem_append_left _ (mem_flatMap.mpr ⟨delta, hdelta, ?_⟩))
    simp [IxfrDeltaSequence.records]
  obtain ⟨hsequences, hlast⟩ :=
    deltaSequences_of_chain hterminal ((isSoa_iff outerSoa).mpr houterType) hchain
    (fun delta hdelta => by
      obtain ⟨_, _, _, hrdata, hmname, hrname, htimers⟩ :=
        (hnewContent delta hdelta).soa (hchain.newSoa_type delta hdelta)
      exact ⟨_, hrdata ▸ soaSerial_soa hmname hrname htimers⟩) currentSoa hcur
  have hlastContent : TransferContent zoneApex qclass _ :=
    forall_mem_cons.mpr ⟨hcurrentContent, forall_mem_map.mpr hnewContent⟩ _ (getLastD_mem_cons ..)
  generalize (sequences.map IxfrDeltaSequence.newSoa).getLastD currentSoa = last at *
  have hlastSerial : soaSerial last.rdata = .ok newSerial := by
    have hlastType : last.rrType = RecordType.soa :=
      (congrArg RecordKey.rrType hlast).trans houterType
    rw [(soa_eq_of_identity hlastContent (hcontent outerSoa (mem_cons_self ..)) hlastType houterType
      (congrArg RecordKey.rdata hlast)).1, hnew]
  rw [parseIxfrIncrementalDeltaParts, validateCurrentSoa_ok hsoaKey hold, ok_bind_eq]
  dsimp only
  rw [validateCurrentSoa_ok houterKey hnew, hold, hnew]
  show (if newSerial - oldSerial = 0 ∨ 0x80000000 ≤ newSerial - oldSerial then _ else _) = _
  rw [if_neg (by rintro (hzero | hfar); exacts [hforward.1 hzero,
    UInt32.not_lt.mpr hfar hforward.2]), hsequences, ok_bind_eq]
  rw [if_pos rfl, hlastSerial]
  show (if (!resourceRecordsSemanticallyEqual last outerSoa || newSerial != newSerial) =
    true then _ else _) = _
  rw [(resourceRecordsSemanticallyEqual_iff _ _).mpr hlast, if_neg (by simp)]

end Answers

section Soa

variable {platform : Platform} {zoneApex : DomainName} {qclass : UInt16}
  {records : List ResourceRecord}

/-- RRsets that store the same version give the same timers. -/
theorem soaTimersFromRrsets_eq {soa : RecordKey} (hsoa : SoleSoa version soa)
    (hown : soa.owner.toAsciiLowercased = soa.owner) {left right : RrsetMap}
    (hleft : ∀ key, Stores version key (left.lookup key))
    (hright : ∀ key, Stores version key (right.lookup key))
    (hleftSource : ∀ key rrset, left.lookup key = some rrset →
      FromSource (TransferContent zoneApex qclass) rrset)
    (hrightSource : ∀ key rrset, right.lookup key = some rrset →
      FromSource (TransferContent zoneApex qclass) rrset)
    (originKey : NameKey) :
    soaTimersFromRrsets originKey left = soaTimersFromRrsets originKey right := by
  unfold soaTimersFromRrsets
  by_cases hkey : (⟨originKey, RecordType.soa, 1⟩ : RrsetKey) = soa.rrsetKey
  · obtain ⟨first, rdata, hfirst, hstored⟩ := Stores.exists_soa (hleft soa.rrsetKey) hsoa hown
    obtain ⟨second, other, hsecond, hstoredOther⟩ :=
      Stores.exists_soa (hright soa.rrsetKey) hsoa hown
    rw [hkey, hfirst, hsecond, bind_some, bind_some, hstored.rdatas, hstoredOther.rdatas]
    obtain ⟨sent, hsent, hsentKey, rfl⟩ := hleftSource _ _ hfirst rdata (by simp [hstored.rdatas])
    obtain ⟨otherSent, hother, hotherKey, rfl⟩ :=
      hrightSource _ _ hsecond other (by simp [hstoredOther.rdatas])
    have hsentType : sent.rrType = RecordType.soa :=
      (congrArg rrType (hsentKey.trans hstored.key)).trans hsoa.2.1
    have hotherType : otherSent.rrType = RecordType.soa :=
      (congrArg rrType (hotherKey.trans hstoredOther.key)).trans hsoa.2.1
    refine (soa_eq_of_identity hsent hother hsentType hotherType ?_).2
    rw [hsentType, hotherType, hstored.identity, hstoredOther.identity]
  · have hnone : ∀ rrsets : RrsetMap, (∀ key, Stores version key (rrsets.lookup key)) →
        rrsets.lookup ⟨originKey, RecordType.soa, 1⟩ = none := by
      intro rrsets hstores
      cases hlook : rrsets.lookup ⟨originKey, RecordType.soa, 1⟩ with
      | none => rfl
      | some rrset => exact absurd (key_of_stored_soa hstores hsoa hlook rfl) hkey
    rw [hnone left hleft, hnone right hright]

variable {snapshot : ZoneSnapshot platform}

theorem Accepted.source_content (h : Accepted snapshot zoneApex qclass records) (key : RrsetKey)
    (rrset : Rrset) (hlook : snapshot.rrsets.lookup key = some rrset) :
    FromSource (TransferContent zoneApex qclass) rrset := by
  intro rdata hrdata
  obtain ⟨record, hrec, hkey, heq⟩ := h.source key rrset hlook rdata hrdata
  exact ⟨record, h.content record hrec, hkey, heq⟩

/-- The SOA of the current zone, as an incremental transfer asks for it. -/
theorem Accepted.transferSoaRecord (h : Accepted snapshot zoneApex qclass records)
    (hclass : qclass ≠ classAny) {soa : ResourceRecord}
    (hsoa : SoleSoa (versionOf records) (fromRecord soa))
    (hkey : rrsetIdentity soa = ⟨zoneApex.canonicalKey, RecordType.soa, qclass⟩) :
    ∃ current, snapshot.transferSoaRecord qclass = some current ∧
      fromRecord (normalizeRecordOwner current) = fromRecord soa ∧
      TransferContent zoneApex qclass (normalizeRecordOwner current) := by
  obtain ⟨rrset, rdata, hlook, hstored⟩ :=
    Stores.exists_soa (h.stores _) hsoa (DomainName.toAsciiLowercased_idem soa.owner)
  have htype : soa.rrType = RecordType.soa := congrArg rrType hkey
  obtain ⟨sent, hsent, hsentKey, hrdata⟩ :=
    h.source_content _ _ hlook rdata (by simp [hstored.rdatas])
  have hrrType : rrset.rrType = soa.rrType := congrArg rrType hstored.key
  have hcls : rrset.cls = soa.cls := congrArg cls hstored.key
  refine ⟨⟨rrset.owner, rrset.rrType, rrset.cls, rrset.ttl, rdata⟩, ?_, ?_, ?_⟩
  · rw [rrsetKey_fromRecord, hkey] at hlook
    rw [ZoneSnapshot.transferSoaRecord, ZoneSnapshot.soaRrset, if_neg hclass, h.originKey, hlook,
      bind_some, Rrset.records, Rrset.recordsWithOwner, hstored.rdatas]
    rfl
  · rw [fromRecord_normalizeRecordOwner, fromRecord, hrrType, hcls, hstored.ttl, hstored.owner]
    refine RecordKey.ext (DomainName.toAsciiLowercased_idem soa.owner) rfl rfl rfl ?_
    rw [htype]
    exact hstored.identity
  · have hsentType : sent.rrType = rrset.rrType := congrArg rrType hsentKey
    have hsentCls : sent.cls = rrset.cls := congrArg cls hsentKey
    rw [← hsentType, ← hsentCls, ← hrdata]
    have hown : rrset.owner.canonicalKey = sent.owner.canonicalKey :=
      (congrArg owner hsentKey).symm
    exact (hsent.of_owner hown rrset.ttl).normalize

end Soa

section Transfer

variable {platform : Platform} {zoneApex : DomainName} {qclass : UInt16}
  {records targetRecords : List ResourceRecord} {current target : ZoneSnapshot platform}

theorem soaRecordCount_withCowRrsetReplacements {snapshot : ZoneSnapshot platform}
    (h : snapshot.soaRecordCount = snapshot.rrsets.total soaShare) (identity : ℕ) (serial : UInt32)
    {replacements : List Replacement} (hdist : (replacements.map Prod.fst).Nodup) :
    (snapshot.withCowRrsetReplacements identity serial replacements).soaRecordCount =
      (snapshot.rrsets.putAll replacements).total soaShare := by
  exact AList.foldl_putAll_invariant
    (P := fun (progress : CowProgress) later => progress.soaRecordCount = later.total soaShare)
    hdist (fun progress later change _ hprogress =>
      soaRecordCount_step later change.1 change.2 progress.soaRecordCount hprogress) h

/-- Two RRsets that hold the same records have the same data where no name is spelled in two ways.
-/
theorem SameRrset.rdatas_of_spelledAlike {left right : Rrset} (h : SameRrset left right)
    {leftRecords rightRecords : List ResourceRecord}
    (hspelled : SpelledAlike leftRecords rightRecords)
    (hleft : FromSource (· ∈ leftRecords) left) (hright : FromSource (· ∈ rightRecords) right)
    (rdata : Rdata) : rdata ∈ left.rdatas ↔ rdata ∈ right.rdatas := by
  have hkeys : left.key = right.key := by rw [Rrset.key, Rrset.key, h.owner, h.rrType, h.cls]
  have hsame : ∀ a ∈ left.rdatas, ∀ b ∈ right.rdatas,
      canonicalRdataIdentity left.rrType a = canonicalRdataIdentity right.rrType b → a = b := by
    intro a ha b hb hid
    obtain ⟨sent, hsent, hsentKey, rfl⟩ := hleft a ha
    obtain ⟨other, hother, hotherKey, rfl⟩ := hright b hb
    have hsentType : sent.rrType = left.rrType := congrArg RrsetKey.rrType hsentKey
    have hotherType : other.rrType = right.rrType := congrArg RrsetKey.rrType hotherKey
    refine hspelled sent hsent other hother (hsentKey.trans (hkeys.trans hotherKey.symm)) ?_
    rw [hsentType, hotherType, hid]
  constructor
  · intro hrdata
    obtain ⟨other, hother, hid⟩ := mem_map.mp ((h.rdatas _).mp (mem_map_of_mem hrdata))
    exact hsame rdata hrdata other hother hid.symm ▸ hother
  · intro hrdata
    obtain ⟨other, hother, hid⟩ := mem_map.mp ((h.rdatas _).mpr (mem_map_of_mem hrdata))
    exact hsame other hother rdata hrdata hid ▸ hother

/-- A snapshot holds what another holds: the RRsets, up to the order of their data and the
case of names in them, the serial and the timers. -/
structure SameZone (left right : ZoneSnapshot platform) : Prop where
  rrsets : ∀ key, Option.Rel SameRrset (left.rrsets.lookup key) (right.rrsets.lookup key)
  serial : left.serial = right.serial
  soaTimers : left.soaTimers = right.soaTimers

/-- The data of the RRsets of two snapshots are the same octets. -/
def SameRdatas (left right : ZoneSnapshot platform) : Prop :=
  ∀ key first second, left.rrsets.lookup key = some first → right.rrsets.lookup key = some second →
    ∀ rdata, rdata ∈ first.rdatas ↔ rdata ∈ second.rdatas

/-- The record is one of the list, up to its owner's case and its time to live. -/
def DeliveredIn (zoneApex : DomainName) (qclass : UInt16) (records : List ResourceRecord)
    (record : ResourceRecord) : Prop :=
  TransferContent zoneApex qclass record ∧
    ∃ sent ∈ records, rrsetIdentity sent = rrsetIdentity record ∧ sent.rdata = record.rdata

theorem FromSource.content (h : FromSource (DeliveredIn zoneApex qclass records) rrset) :
    FromSource (TransferContent zoneApex qclass) rrset := by
  intro rdata hrdata
  obtain ⟨record, ⟨hcontent, -⟩, hkey, heq⟩ := h rdata hrdata
  exact ⟨record, hcontent, hkey, heq⟩

theorem FromSource.mem (h : FromSource (DeliveredIn zoneApex qclass records) rrset) :
    FromSource (· ∈ records) rrset := by
  intro rdata hrdata
  obtain ⟨record, ⟨-, sent, hsent, hsentKey, hsentRdata⟩, hkey, heq⟩ := h rdata hrdata
  exact ⟨sent, hsent, hsentKey.trans hkey, hsentRdata.trans heq⟩

theorem applyIxfrIncremental_spec {identity : ℕ} {answers : List ResourceRecord}
    {updated : ZoneSnapshot platform}
    (h : applyIxfrIncremental identity zoneApex qclass current currentSoa answers =
      .ok (.updated updated)) :
    ∃ delta working, parseIxfrIncrementalDeltaParts zoneApex qclass currentSoa answers = .ok
      (delta, true) ∧
      delta.sequences.foldlM (applyDeltaSequence current) ∅ = .ok working ∧
      current.withCowRrsetReplacements identity delta.newSerial (replacementsOf working) = updated ∧
      validateIncrementalZone zoneApex qclass updated delta = .ok () := by
  obtain ⟨⟨delta, terminated⟩, hparts, h⟩ := bind_eq_ok_iff.mp h
  obtain ⟨working, hfold, h⟩ := bind_eq_ok_iff.mp h
  cases terminated with
  | false => cases h
  | true =>
    obtain ⟨_, hchecks, h⟩ := bind_eq_ok_iff.mp h
    have hupdated := IxfrResponse.updated.inj (Except.ok.inj h)
    exact ⟨delta, working, hparts, hfold, hupdated, hupdated ▸ hchecks⟩

/-- What applied sequences leave: the RRsets they touch as the sequences change the records
that the zone gave, and the others as they were. -/
structure AppliedTo (updated current : ZoneSnapshot platform) (zoneApex : DomainName)
    (qclass : UInt16) (records : List ResourceRecord) (sequences : List IxfrDeltaSequence) :
    Prop where
  originKey : updated.originKey = current.originKey
  soaTimers : updated.soaTimers = soaTimersFromRrsets updated.originKey updated.rrsets
  soaRecordCount : updated.soaRecordCount = updated.rrsets.total soaShare
  followable : Followable (servedVersion current) sequences
  touched : ∀ key, Touched sequences key →
    Stores (followed (servedVersion current) sequences) key (updated.rrsets.lookup key)
  untouched : ∀ key, ¬ Touched sequences key → updated.rrsets.lookup key = current.rrsets.lookup key
  source : ∀ key rrset, updated.rrsets.lookup key = some rrset →
    FromSource (DeliveredIn zoneApex qclass records) rrset

/-- The sequences can be followed from the records as the zone gives them, and in the RRsets
that they touch they lead to what is stored for the target. -/
structure LeadsTo (served : ZoneVersion) (sequences : List IxfrDeltaSequence)
    (targetRecords : List ResourceRecord) : Prop where
  followable : Followable served sequences
  alike : ∀ key, Touched sequences key →
    StoredAlike key (followed served sequences) (versionOf targetRecords)

theorem LeadsTo.of_keepsTtls (hcur : Accepted current zoneApex qclass records) {soa : RecordKey}
    (hchain : DeltaChain zoneApex qclass finalSoa (versionOf records) soa sequences
      (versionOf targetRecords))
    (hkeeps : KeepsTtls (Touched sequences) current records) :
    LeadsTo (servedVersion current) sequences targetRecords := by
  obtain ⟨hfollow, hfinal⟩ := hchain.followable
  obtain ⟨hserved, hagree⟩ := hfollow.congr (hcur.agreeOn hkeeps) fun _ => id
  have hsame : AgreeOn (Touched sequences) (followed (servedVersion current) sequences)
      (versionOf targetRecords) := fun record hrec => hfinal ▸ (hagree record hrec).symm
  exact ⟨hserved, fun key hkey => hsame.storedAlike hkey⟩

theorem AppliedTo.stores {updated : ZoneSnapshot platform} {answers : List ResourceRecord}
    (h : AppliedTo updated current zoneApex qclass answers sequences)
    (hcur : Accepted current zoneApex qclass records) {soa : RecordKey}
    (hchain : DeltaChain zoneApex qclass finalSoa (versionOf records) soa sequences
      (versionOf targetRecords))
    (hleads : LeadsTo (servedVersion current) sequences targetRecords) (key : RrsetKey) :
    Stores (versionOf targetRecords) key (updated.rrsets.lookup key) := by
  by_cases htouched : Touched sequences key
  · exact (h.touched key htouched).of_storedAlike (hleads.alike key htouched)
  · rw [h.untouched key htouched]
    refine (hcur.stores key).congr fun record hkey => ?_
    rw [← hchain.followable.2, mem_followed_of_untouched (hkey ▸ htouched)]

section Applying

variable {answers : List ResourceRecord}

theorem Accepted.sequences_applied (hcur : Accepted current zoneApex qclass records)
    (hcontent : ∀ record ∈ answers, TransferContent zoneApex qclass record)
    (hsequences : ∀ delta ∈ sequences, ∀ record ∈ delta.newSoa :: delta.adds, record ∈ answers) :
    (Followable (servedVersion current) sequences →
        ∃ working, sequences.foldlM (applyDeltaSequence current) ∅ = .ok working) ∧
      ∀ working, sequences.foldlM (applyDeltaSequence current) ∅ = .ok working →
      ∀ identity newSerial,
        AppliedTo
          (current.withCowRrsetReplacements identity newSerial (replacementsOf working)) current
          zoneApex qclass (records ++ answers) sequences := by
  have hserves : Serves current (servedVersion current)
      (DeliveredIn zoneApex qclass (records ++ answers)) := by
    refine hcur.serves fun record hrec owner ttl hown => ?_
    refine ⟨(hcur.content record hrec).of_owner hown ttl, record,
      mem_append_left _ hrec, ?_, rfl⟩
    rw [rrsetIdentity, rrsetIdentity, hown]
  have hstart : ∀ key rrset, current.rrsets.lookup key = some rrset →
      FromSource (DeliveredIn zoneApex qclass (records ++ answers)) rrset := by
    intro key rrset hlook rdata hrdata
    obtain ⟨record, hrec, hkey, heq⟩ := hcur.source key rrset hlook rdata hrdata
    exact ⟨record, ⟨hcur.content record hrec, record, mem_append_left _ hrec, rfl, rfl⟩,
      hkey, heq⟩
  obtain ⟨hexists, hworking⟩ := WorkingFor.chain hserves
    (fun delta hdelta record hrec =>
      have hanswer := hsequences delta hdelta record hrec
      ⟨hcontent record hanswer, record, mem_append_right _ hanswer, rfl, rfl⟩) workingFor_empty
  refine ⟨hexists, fun working hfold identity newSerial => ?_⟩
  obtain ⟨hfollow, hfinal⟩ := hworking working hfold
  have hlook := lookup_replacementsOf current.rrsets working
  have htouched : ∀ key, key ∈ working ↔ Touched sequences key := by
    intro key
    rw [mem_sequences hfold]
    exact or_iff_right (AList.notMem_empty key)
  refine ⟨rfl, rfl, ?_, hfollow, fun key hkey => ?_, fun key hkey => ?_,
    fun key rrset => hfinal.fromSource hstart⟩
  · refine soaRecordCount_withCowRrsetReplacements hcur.soaRecordCount identity newSerial ?_
    rw [map_fst_replacementsOf]
    exact working.nodupKeys
  · obtain ⟨rrset, hrrset⟩ :=
      Option.isSome_iff_exists.mp (AList.lookup_isSome.mpr ((htouched key).mpr hkey))
    refine (congrArg (Stores _ key) ((hlook key).trans ?_)).mpr (hfinal.stores_touched hrrset)
    rw [hrrset]
    rfl
  · refine (hlook key).trans ?_
    rw [AList.lookup_eq_none.mpr fun hmem => hkey ((htouched key).mp hmem)]
    rfl

/-- Sequences that lead to the target are applied and pass the checks. -/
theorem Accepted.applyIxfrIncremental_ok (hcur : Accepted current zoneApex qclass records)
    (hcontent : ∀ record ∈ answers, TransferContent zoneApex qclass record)
    (hsequences : ∀ delta ∈ sequences, ∀ record ∈ delta.newSoa :: delta.adds, record ∈ answers)
    (htarget : Accepted target zoneApex qclass targetRecords) {soa : RecordKey}
    (hchain : DeltaChain zoneApex qclass finalSoa (versionOf records) soa sequences
      (versionOf targetRecords))
    (hparts : parseIxfrIncrementalDeltaParts zoneApex qclass currentSoa answers =
      .ok (⟨oldSerial, newSerial, sequences⟩, true))
    (hleads : LeadsTo (servedVersion current) sequences targetRecords) (identity : ℕ) :
    ∃ updated, applyIxfrIncremental identity zoneApex qclass current currentSoa answers = .ok
      (.updated updated) := by
  obtain ⟨hexists, happlied⟩ := hcur.sequences_applied hcontent hsequences
  obtain ⟨working, hfold⟩ := hexists hleads.followable
  have happlied := happlied working hfold identity newSerial
  refine ⟨current.withCowRrsetReplacements identity newSerial (replacementsOf working), ?_⟩
  rw [applyIxfrIncremental, hparts, ok_bind_eq]
  dsimp only
  rw [hfold, ok_bind_eq, if_neg (by simp), validateIncrementalZone_of_stores htarget
    (happlied.stores hcur hchain hleads)
    (fun key rrset hlook => (happlied.source key rrset hlook).content) happlied.soaRecordCount]
  rfl

end Applying

/-- A response with an SOA and another is an incremental one. -/
theorem parseIxfrResponse_incremental {held second : ResourceRecord} {rest : List ResourceRecord}
    {qid : UInt16} {messages : List (List UInt8)} {identity : ℕ}
    (hheld : current.transferSoaRecord qclass = some held)
    (hvalid : validateCurrentSoa (normalizeRecordOwner held) zoneApex qclass = .ok ())
    (hans : ixfrAnswers qid zoneApex qclass messages = .ok (outerSoa :: second :: rest))
    (houter : rrsetIdentity outerSoa = ⟨zoneApex.canonicalKey, soa, qclass⟩)
    (hsecond : second.rrType = soa) :
    parseIxfrResponse identity qid zoneApex qclass current messages =
      applyIxfrIncremental identity zoneApex qclass current (normalizeRecordOwner held)
        (outerSoa :: second :: rest) := by
  have hmessages : ¬ messages.isEmpty = true := by
    intro hempty
    rw [List.isEmpty_iff.mp hempty] at hans
    exact absurd (Except.ok.inj hans) (by simp)
  have houterOwner : outerSoa.owner.canonicalKey = zoneApex.canonicalKey := congrArg owner houter
  have houterType : outerSoa.rrType = soa := congrArg rrType houter
  unfold parseIxfrResponse
  rw [hheld]
  dsimp only
  rw [hvalid, ok_bind_eq, if_neg hmessages, hans, ok_bind_eq]
  dsimp only
  rw [if_neg (by simp [houterOwner, houterType]), if_pos hsecond]

/-- The incremental transfer of a chain that leads from the records of a full transfer to
those of another is accepted and leaves the zone of the other exactly when the chain also
leads there from the records as the snapshot gives them. Names in the data are then
spelled as in the other where they are spelled in one way. -/
theorem parseIxfrResponse_of_differences (hcurrent : FullTransfer current zoneApex qclass records)
    (htarget : FullTransfer target zoneApex qclass targetRecords) (hclass : qclass ≠ classAny)
    {qid : UInt16} {messages : List (List UInt8)}
    {answers : List ResourceRecord}
    (hanswers : ixfrAnswers qid zoneApex qclass messages = .ok answers)
    (hdifferences : DifferenceAnswers zoneApex qclass records targetRecords sequences answers)
    (hforward : ∃ oldSerial newSerial, current.serial = some oldSerial ∧
      target.serial = some newSerial ∧
      newSerial - oldSerial ≠ 0 ∧ newSerial - oldSerial < 0x80000000) (identity : ℕ) :
    ((∃ updated, parseIxfrResponse identity qid zoneApex qclass current messages =
      .ok (.updated updated) ∧
        SameZone updated target) ↔ LeadsTo (servedVersion current) sequences targetRecords) ∧
      ∀ updated, parseIxfrResponse identity qid zoneApex qclass current messages = .ok
        (.updated updated) →
        SameZone updated target → SpelledAlike (records ++ answers) targetRecords →
        SameRdatas updated target := by
  have hc := hcurrent.accepted
  have ht := htarget.accepted
  obtain ⟨soa, hsoa, hsole, hsoaType, hsoaKey, oldSerial, hold, holdSerial⟩ := hc.sole_soa
  obtain ⟨finalSoa, hfinal, hfinalSole, hfinalType, hfinalKey, newSerial, hnew, hnewSerial⟩ :=
    ht.sole_soa
  have hserials : newSerial - oldSerial ≠ 0 ∧ newSerial - oldSerial < 0x80000000 := by
    obtain ⟨first, second, hfirst, hsecond, hdistance⟩ := hforward
    obtain rfl : oldSerial = first := some.inj (holdSerial.symm.trans hfirst)
    obtain rfl : newSerial = second := some.inj (hnewSerial.symm.trans hsecond)
    exact hdistance
  have hcontent := checked_ixfrAnswers hanswers
  obtain ⟨held, hheld, hheldKey, hheldContent⟩ := hc.transferSoaRecord hclass hsole hsoaKey
  have hheldIdentity : rrsetIdentity (normalizeRecordOwner held) = ⟨zoneApex.canonicalKey,
      RecordType.soa, qclass⟩ := by
    rw [← rrsetKey_fromRecord, hheldKey, rrsetKey_fromRecord, hsoaKey]
  have hheldSerial : soaSerial (normalizeRecordOwner held).rdata = .ok oldSerial := by
    rw [(soa_eq_of_identity hheldContent (hc.content soa hsoa)
      (congrArg rrType hheldIdentity) hsoaType (congrArg RecordKey.rdata hheldKey)).1, hold]
  obtain ⟨sentSoa, outerSoa, terminal, hsentSoa, hsentType, hterminal, hchain⟩ := hdifferences
  have hsentKey : fromRecord sentSoa = fromRecord soa :=
    hsole.2.2 _ (mem_versionOf.mpr ⟨sentSoa, hsentSoa, rfl⟩) ((isSoa_iff sentSoa).mp hsentType)
  rw [hsentKey] at hchain
  have houterKey : fromRecord outerSoa = fromRecord finalSoa := by
    obtain ⟨hmem, htype⟩ := hchain.final_soa hsole.1 hsoaType
    exact hfinalSole.2.2 _ hmem htype
  have houterIdentity : rrsetIdentity outerSoa = ⟨zoneApex.canonicalKey, RecordType.soa,
      qclass⟩ := by
    rw [← rrsetKey_fromRecord, houterKey, rrsetKey_fromRecord, hfinalKey]
  have houterType : outerSoa.rrType = RecordType.soa := congrArg rrType houterIdentity
  have houterSerial : soaSerial outerSoa.rdata = .ok newSerial := by
    rw [(soa_eq_of_identity (hcontent outerSoa (mem_cons_self ..))
      (ht.content finalSoa hfinal) houterType
      hfinalType (congrArg RecordKey.rdata houterKey)).1, hnew]
  have hparts :=
    parseIxfrIncrementalDeltaParts_of_chain hheldIdentity houterIdentity hheldSerial
      houterSerial hserials
    hcontent hheldKey hheldContent hterminal hchain
  have hsequences : ∀ delta ∈ sequences, ∀ record ∈ delta.newSoa :: delta.adds,
      record ∈ outerSoa :: (sequences.flatMap IxfrDeltaSequence.records ++ [terminal]) := by
    intro delta hdelta record hrecord
    refine mem_cons_of_mem _ (mem_append_left _ (mem_flatMap.mpr ⟨delta, hdelta, ?_⟩))
    exact mem_append_right _ hrecord
  have hparse : parseIxfrResponse identity qid zoneApex qclass current messages =
      applyIxfrIncremental identity zoneApex qclass current (normalizeRecordOwner held)
        (outerSoa :: (sequences.flatMap IxfrDeltaSequence.records ++ [terminal])) := by
    have hlast : isSoa terminal = true :=
      (isSoa_iff terminal).mpr ((congrArg RecordKey.rrType hterminal).trans houterType)
    obtain ⟨second, rest, hrest⟩ :=
      exists_cons_of_ne_nil (show sequences.flatMap IxfrDeltaSequence.records ++
        [terminal] ≠ [] by simp)
    have hsecond := hchain.head_isSoa hlast second (by rw [hrest]; rfl)
    rw [hrest] at hanswers ⊢
    exact parseIxfrResponse_incremental hheld
      (validateCurrentSoa_ok hheldIdentity hheldSerial) hanswers
      houterIdentity ((isSoa_iff second).mp hsecond)
  rw [hparse]
  have happlied : ∀ updated, applyIxfrIncremental identity zoneApex qclass current
      (normalizeRecordOwner held)
      (outerSoa :: (sequences.flatMap IxfrDeltaSequence.records ++ [terminal])) =
      .ok (.updated updated) →
        updated.serial = some newSerial ∧ AppliedTo updated current zoneApex qclass
          (records ++ outerSoa :: (sequences.flatMap IxfrDeltaSequence.records ++
          [terminal])) sequences := by
    intro updated happly
    obtain ⟨delta, working, hdelta, hfold, rfl, -⟩ := applyIxfrIncremental_spec happly
    obtain rfl : delta = ⟨oldSerial, newSerial, sequences⟩ :=
      (congrArg Prod.fst (Except.ok.inj (hparts.symm.trans hdelta))).symm
    exact ⟨rfl, (hc.sequences_applied hcontent hsequences).2 working hfold identity newSerial⟩
  refine ⟨⟨?_, fun hleads => ?_⟩, ?_⟩
  · rintro ⟨updated, happly, hsame⟩
    obtain ⟨-, happlied⟩ := happlied updated happly
    exact ⟨happlied.followable,
      fun key hkey => (happlied.touched key hkey).storedAlike (ht.stores key) (hsame.rrsets key)⟩
  · obtain ⟨updated, happly⟩ :=
      hc.applyIxfrIncremental_ok hcontent hsequences ht hchain hparts hleads identity
    obtain ⟨hserial, happlied⟩ := happlied updated happly
    have hstores := happlied.stores hc hchain hleads
    refine ⟨updated, happly, fun key => (hstores key).same (ht.stores key),
      hserial.trans hnewSerial.symm, ?_⟩
    rw [happlied.soaTimers, happlied.originKey, hc.originKey, ht.soaTimers, ht.originKey]
    exact soaTimersFromRrsets_eq hfinalSole (DomainName.toAsciiLowercased_idem _) hstores ht.stores
      (fun key rrset hlookup => (happlied.source key rrset hlookup).content) ht.source_content _
  · intro updated happly hsame hspelled key first second hfirst hsecond
    have hrel := hsame.rrsets key
    rw [hfirst, hsecond] at hrel
    cases hrel with
    | some hsame =>
      exact hsame.rdatas_of_spelledAlike hspelled
        ((happlied updated happly).2.source key first hfirst).mem (ht.source key second hsecond)

end Transfer

section Ttls

variable {platform : Platform} {snapshot : ZoneSnapshot platform} {zoneApex : DomainName}
  {qclass : UInt16} {records : List ResourceRecord}

/-- The records of an RRset have one time to live, and a signature has that of the RRset it
covers, which is there. -/
structure UniformTtls (records : List ResourceRecord) : Prop where
  rrsets : ∀ record ∈ records, record.rrType ≠ rrsig → ∀ other ∈ records,
    rrsetIdentity other = rrsetIdentity record → other.ttl = record.ttl
  signatures : ∀ record ∈ records, record.rrType = rrsig → ∃ covered ∈ records,
    covered.rrType ≠ rrsig ∧ rdataU16 record.rdata = some covered.rrType ∧
      covered.owner.canonicalKey = record.owner.canonicalKey ∧ covered.cls = record.cls ∧
      covered.ttl = record.ttl

theorem ttl_of_uniform (h : UniformTtls records) (hrec : record ∈ records)
    (htype : record.rrType ≠ rrsig) (hkey : rrset.key = rrsetIdentity record)
    (hholds : Holds (versionOf records) rrset) : rrset.ttl = record.ttl := by
  obtain ⟨low, hlow, hlowKey, hlowTtl⟩ := hholds.ttl_mem
  obtain ⟨other, hother, rfl⟩ := mem_versionOf.mp hlow
  rw [← hlowTtl]
  exact h.rrsets record hrec htype other hother (by rw [← rrsetKey_fromRecord, hlowKey, hkey])

/-- Times to live as the standards ask for are kept. -/
theorem Accepted.keepsTtls (h : Accepted snapshot zoneApex qclass records)
    (hclass : qclass ≠ classAny) (huniform : UniformTtls records) (keys : RrsetKey → Prop) :
    KeepsTtls keys snapshot records := by
  have hstored : ∀ {record rrset}, snapshot.rrsets.lookup (rrsetIdentity record) = some rrset →
      rrset.key = rrsetIdentity record ∧ Holds (versionOf records) rrset := by
    intro record rrset hlook
    have hstores := h.stores (rrsetIdentity record)
    rw [hlook] at hstores
    exact hstores
  intro record hrec _ rrset hlook
  unfold recordTtlByOwnerKey
  split
  next htype => exact ttl_of_uniform huniform hrec htype (hstored hlook).1 (hstored hlook).2
  next htype =>
    rw [not_not] at htype
    obtain ⟨covered, hcovered, hcoveredType, hcovers, hown, hcls, httl⟩ :=
      huniform.signatures record hrec htype
    have hcoveredKey : (⟨record.owner.canonicalKey, covered.rrType, record.cls⟩ : RrsetKey) =
        rrsetIdentity covered := by
      rw [rrsetIdentity, hown, hcls]
    rw [hcovers]
    dsimp only
    obtain ⟨found, _, hfound, -⟩ := exists_stored_of_mem h.stores hcovered
    rw [rrsetByNameKey, if_neg (by rw [(h.content record hrec).cls]; exact hclass), hcoveredKey,
      hfound]
    exact (ttl_of_uniform huniform hcovered hcoveredType (hstored hfound).1
      (hstored hfound).2).trans httl

end Ttls

section Samples

open Bytes

def sampleApex : DomainName := ⟨[[122]], by decide⟩

def sampleSoa (serial : UInt32) : ResourceRecord :=
  ⟨sampleApex, soa, 1, 300, [0, 0] ++ be32 serial ++ List.replicate 16 0⟩

def sampleNs : ResourceRecord := ⟨sampleApex, ns, 1, 300, [0]⟩

variable (ttl : UInt32)

def sampleAddress (octet : UInt8) : ResourceRecord :=
  ⟨sampleApex, RecordType.a, 1, ttl, List.replicate 4 octet⟩

/-- The first version of a zone, whose second address has a time to live of its own. -/
def sampleRecords : List ResourceRecord :=
  [sampleSoa 1, sampleNs, sampleAddress 300 1, sampleAddress ttl 2]

/-- The second version, without the second address. -/
def sampleTargetRecords : List ResourceRecord := [sampleSoa 2, sampleNs, sampleAddress 300 1]

def sampleSequence : IxfrDeltaSequence := ⟨sampleSoa 1, [sampleAddress ttl 2], sampleSoa 2, []⟩

def sampleAnswers : List ResourceRecord :=
  sampleSoa 2 :: ([sampleSequence ttl].flatMap IxfrDeltaSequence.records ++ [sampleSoa 2])

def recordWire (record : ResourceRecord) : List UInt8 :=
  [0xc0, 12] ++ be16 record.rrType ++ be16 record.cls ++ be32 record.ttl ++
    be16 (UInt16.ofNat record.rdata.length) ++ record.rdata

/-- A response with the question and the records, whose owners point to the question. -/
def responseWire (qtype : UInt16) (records : List ResourceRecord) : List UInt8 :=
  be16 0 ++ be16 0x8000 ++ be16 1 ++ be16 (UInt16.ofNat records.length) ++ be16 0 ++ be16 0 ++
    sampleApex.toWire ++ be16 qtype ++ be16 1 ++ records.flatMap recordWire

def sampleZone (serial : UInt32) (records : List ResourceRecord) : ZoneSnapshot plainPlatform :=
  active 0 sampleApex (some serial) (rrsetsFromRecords records)

theorem fullTransfer_of_read {platform : Platform} {zoneApex : DomainName} {qclass : UInt16}
    {records : List ResourceRecord} {serial : Option UInt32} (qid : UInt16)
    (messages : List (List UInt8))
    (hread : axfrZoneRecords qid zoneApex qclass axfr messages = .ok (records, serial))
    (hvalid : validateZoneRecordSet zoneApex records = .ok ()) (identity : ℕ) :
    FullTransfer
      (active identity zoneApex serial (rrsetsFromRecords records) : ZoneSnapshot platform)
      zoneApex qclass records := by
  refine ⟨identity, qid, messages, serial, hread, ?_⟩
  rw [parseAxfrResponse, parseAxfrResponseWithQuestion, hread, ok_bind_eq]
  dsimp only
  rw [hvalid]
  rfl

theorem differenceAnswers_sample {ttl : UInt32}
    (hdeletes : Deletable (versionOf (sampleRecords ttl)) [sampleSoa 1, sampleAddress ttl 2])
    (hfinal : (sampleSequence ttl).apply (versionOf (sampleRecords ttl)) =
      versionOf sampleTargetRecords) :
    DifferenceAnswers sampleApex 1 (sampleRecords ttl) sampleTargetRecords [sampleSequence ttl]
      (sampleAnswers ttl) := by
  refine .mk (sampleSoa 1) (sampleSoa 2) (sampleSoa 2) (mem_cons_self ..) rfl rfl ?_
  refine .cons (sampleSequence ttl) (by decide +kernel) rfl hdeletes ⟨rfl, rfl⟩ ?_ ⟨rfl, rfl⟩ ?_
  · intro record hrec
    obtain rfl : record = sampleAddress ttl 2 := by simpa [sampleSequence] using hrec
    rfl
  · rw [hfinal]
    exact .nil _

theorem fullTransfer_sampleTarget :
    FullTransfer (sampleZone 2 sampleTargetRecords) sampleApex 1 sampleTargetRecords :=
  fullTransfer_of_read 0 [responseWire axfr (sampleTargetRecords ++ [sampleSoa 2])]
    (by decide +kernel) (by decide +kernel) 0

/-- One time to live for both addresses: the difference is applied. -/
theorem parseIxfrResponse_of_differences_sample :
    ∃ updated, parseIxfrResponse 0 0 sampleApex 1 (sampleZone 1 (sampleRecords 300))
        [responseWire ixfr (sampleAnswers 300)] = .ok (.updated updated) ∧
      SameZone updated (sampleZone 2 sampleTargetRecords) ∧ SameRdatas updated
        (sampleZone 2 sampleTargetRecords) := by
  have hcurrent : FullTransfer (sampleZone 1 (sampleRecords 300)) sampleApex 1
      (sampleRecords 300) :=
    fullTransfer_of_read 0 [responseWire axfr (sampleRecords 300 ++ [sampleSoa 1])]
      (by decide +kernel) (by decide +kernel) 0
  have hdifferences := @differenceAnswers_sample 300 ⟨by decide +kernel, by decide +kernel, trivial⟩
    (by decide +kernel)
  have hleads : LeadsTo (servedVersion (sampleZone 1 (sampleRecords 300))) [sampleSequence 300]
      sampleTargetRecords := by
    cases hdifferences with
    | mk soa _ _ _ _ _ hchain =>
      exact .of_keepsTtls hcurrent.accepted hchain
        (hcurrent.accepted.keepsTtls (by decide) ⟨by decide +kernel, by decide +kernel⟩ _)
  have hanswers : ixfrAnswers 0 sampleApex 1 [responseWire ixfr (sampleAnswers 300)] =
      .ok (sampleAnswers 300) := by decide +kernel
  have hspelled : SpelledAlike (sampleRecords 300 ++ sampleAnswers 300) sampleTargetRecords := by
    unfold SpelledAlike
    decide +kernel
  obtain ⟨hiff, hrdatas⟩ :=
    parseIxfrResponse_of_differences hcurrent fullTransfer_sampleTarget (by decide)
    hanswers hdifferences ⟨1, 2, rfl, rfl, by decide, by decide⟩ 0
  obtain ⟨updated, hparse, hsame⟩ := hiff.mpr hleads
  exact ⟨updated, hparse, hsame, hrdatas updated hparse hsame hspelled⟩

/-- The error of a result that has one. -/
def errorOf {ε α : Type} : Except ε α → Option ε
  | .error error => some error
  | .ok _ => none

/-- With another time to live for the second address, the snapshot no longer has the record
that the difference deletes. -/
theorem parseIxfrResponse_mixedTtls_rejected :
    FullTransfer (sampleZone 1 (sampleRecords 600)) sampleApex 1 (sampleRecords 600) ∧
      FullTransfer (sampleZone 2 sampleTargetRecords) sampleApex 1 sampleTargetRecords ∧
      ixfrAnswers 0 sampleApex 1 [responseWire ixfr (sampleAnswers 600)] = .ok (sampleAnswers 600) ∧
      DifferenceAnswers sampleApex 1 (sampleRecords 600) sampleTargetRecords [sampleSequence 600]
        (sampleAnswers 600) ∧
      errorOf (parseIxfrResponse 0 0 sampleApex 1 (sampleZone 1 (sampleRecords 600))
        [responseWire ixfr (sampleAnswers 600)]) = some .deleteAbsentRecord := by
  refine ⟨?_, fullTransfer_sampleTarget, by decide +kernel,
    differenceAnswers_sample ⟨by decide +kernel, by decide +kernel, trivial⟩ (by decide +kernel),
    by decide +kernel⟩
  exact fullTransfer_of_read 0 [responseWire axfr (sampleRecords 600 ++ [sampleSoa 1])]
    (by decide +kernel) (by decide +kernel) 0

end Samples

end BoronDns
