import BoronDns.CacheJournal

/-!
Runs of the cache: snapshots are staged one after the other, in full or as the changes
of an accepted incremental transfer, and each is promoted before the next. The files
then hold a checkpoint and entries that replay to the last snapshot.
-/

namespace BoronDns

open List Option Except ZoneSnapshot RecordType

namespace ZonePersistence

section Kept

variable {platform : Platform} {cache : ZonePersistence} {zoneApex : DomainName} {qclass : UInt16}
  {files result : CacheFiles} {base : Checkpoint} {entries : List JournalEntry}
  {active : List UInt8} {live snapshot previous : ZoneSnapshot platform} {now : UInt64}
  {rel : Rrset → Rrset → Prop}

/-- The files hold what replays to a mirror of the live snapshot. -/
structure Kept (rel : Rrset → Rrset → Prop) (cache : ZonePersistence) (zoneApex : DomainName)
    (qclass : UInt16) (files : CacheFiles) (live : ZoneSnapshot platform) (base : Checkpoint)
    (entries : List JournalEntry) (active : List UInt8) : Prop where
  holding : Holding cache zoneApex files base entries active
  validated : Validated zoneApex qclass live
  replays : ∀ identity, ∃ restored time, replay identity qclass base entries =
    .ok (restored, time) ∧ Mirrors rel zoneApex qclass restored live

theorem Kept.base_serial (h : Kept rel cache zoneApex qclass files live base entries active)
    (hempty : entries = []) : base.serial = live.serial := by
  obtain ⟨restored, time, hreplay, hmirrors⟩ := h.replays 0
  obtain ⟨start, hstart, hfold⟩ := bind_eq_ok_iff.mp hreplay
  rw [hempty] at hfold
  rw [← serial_of_validatedPersistedZoneSnapshot (mapError_eq_ok_iff.mp hstart), ← hmirrors.serial]
  exact congrArg (fun state => state.1.serial) (ok.inj hfold)

/-- A staged checkpoint, in place of the one before, is kept. -/
theorem kept_of_checkpoint (hbut : ∀ a b, rel a b → SameButTtl a b)
    (hvalid : Validated zoneApex qclass snapshot)
    (hsettled : ∀ key rrset, snapshot.rrsets.lookup key = some rrset →
      rel (settledRrset snapshot key.owner rrset) rrset)
    (hholding : Holding cache zoneApex result (checkpointOf now snapshot) [] active) :
    Kept rel cache zoneApex qclass result snapshot (checkpointOf now snapshot) [] active :=
  ⟨hholding, hvalid, fun identity =>
    ⟨_, _, replay_checkpointOf hvalid identity,
      mirrors_settledSnapshot hbut hvalid hsettled identity⟩⟩

/-- The serial of the second snapshot comes after that of the first, as it is checked before a
transferred zone is published. -/
def Advances (previous snapshot : ZoneSnapshot platform) : Prop :=
  ∀ oldSerial newSerial, previous.serial = some oldSerial → snapshot.serial = some newSerial →
    ¬ (newSerial - oldSerial = 0 ∨ 0x80000000 ≤ newSerial - oldSerial)

/-- A journal with the changes of an incremental transfer is kept. -/
theorem Kept.journal (hrefl : ∀ rrset, rel rrset rrset) (hbut : ∀ a b, rel a b → SameButTtl a b)
    (h : Kept rel cache zoneApex qclass files previous base entries active)
    (hvalid : Validated zoneApex qclass snapshot)
    (hadvances : Advances previous snapshot) {oldSerial newSerial : UInt32}
    {changes : List PersistenceRrsetChange} (hold : previous.serial = some oldSerial)
    (hnew : snapshot.serial = some newSerial) (hchanges : ChangesBetween previous snapshot changes)
    {digest : List UInt8}
    (hholding : Holding cache zoneApex result base
      (entries ++ [⟨oldSerial, newSerial, now, changes⟩]) digest) :
    Kept rel cache zoneApex qclass result snapshot base
      (entries ++ [⟨oldSerial, newSerial, now, changes⟩]) digest := by
  obtain ⟨bytes, -, hfile⟩ := h.holding.checkpoint
  refine ⟨hholding, hvalid, fun identity => ?_⟩
  obtain ⟨restored, time, hreplay, hmirrors⟩ := h.replays identity
  have hkey := hfile.origin.symm
  obtain ⟨updated, hupdated, hnext⟩ := replayEntry_mirrors hrefl hbut (hmirrors.congr_apex hkey)
    (h.validated.congr_apex hkey) (hvalid.congr_apex hkey) hchanges hold hnew
    (hadvances oldSerial newSerial hold hnew) time now
  refine ⟨updated, now, ?_, hnext.congr_apex hkey.symm⟩
  obtain ⟨start, hstart, hfold⟩ := bind_eq_ok_iff.mp hreplay
  unfold replay
  rw [hstart, ok_bind_eq, foldlM_append, hfold, ok_bind_eq, foldlM_cons, hupdated]
  rfl

end Kept

end ZonePersistence

section SameData

variable {platform : Platform} {zoneApex : DomainName} {qclass : UInt16}
  {restored live snapshot : ZoneSnapshot platform} {serial : UInt32}

theorem ZoneContent.cls_eq {rrsets : RrsetMap} (h : ZoneContent zoneApex qclass rrsets serial)
    {key : RrsetKey} {rrset : Rrset} (hlook : rrsets.lookup key = some rrset) :
    key.cls = qclass := by
  have hstored := h.stored key rrset hlook
  obtain ⟨rdata, hrdata⟩ := exists_mem_of_ne_nil _ hstored.nonempty
  rw [← h.keysMatch key rrset hlook]
  exact (hstored.content _ (mem_records.mpr ⟨rdata, hrdata, rfl⟩)).cls

/-- In a validated zone there is one RRset of a name and type, also when any class is asked for. -/
theorem ZoneContent.rrsetByNameKey (h : ZoneContent zoneApex qclass snapshot.rrsets serial)
    (owner : NameKey) (rrType : UInt16) :
    snapshot.rrsetByNameKey owner rrType qclass = snapshot.rrsets.lookup
      ⟨owner, rrType, qclass⟩ := by
  unfold ZoneSnapshot.rrsetByNameKey
  split
  · have hkey : ∀ entry ∈ snapshot.rrsets.entries.filter (fun entry =>
        decide (entry.1.owner = owner)),
        entry.2.rrType = rrType → entry.1 = ⟨owner, rrType, qclass⟩ := by
      intro entry hentry htype
      obtain ⟨hmem, hown⟩ := mem_filter.mp hentry
      have hlook := AList.mem_lookup_iff.mpr hmem
      have hsame := h.keysMatch _ _ hlook
      rw [RrsetKey.mk.injEq]
      exact ⟨of_decide_eq_true hown, (congrArg RrsetKey.rrType hsame).symm.trans htype,
        h.cls_eq hlook⟩
    refine Option.ext fun rrset => ⟨fun hfound => ?_, fun hlook => ?_⟩
    · obtain ⟨entry, hentry, rfl⟩ := mem_map.mp (mem_of_find?_eq_some hfound)
      have htype := List.find?_some hfound
      rw [← hkey entry hentry (of_decide_eq_true htype)]
      exact AList.mem_lookup_iff.mpr (mem_filter.mp hentry).1
    · cases hfind : (snapshot.rrsetsAtOwner owner).find? fun rrset =>
          decide (rrset.rrType = rrType) with
      | none =>
        have hnone := List.find?_eq_none.mp hfind rrset (mem_map.mpr ⟨⟨_, rrset⟩,
          mem_filter.mpr ⟨AList.mem_lookup_iff.mp hlook, decide_eq_true rfl⟩, rfl⟩)
        have htype : rrset.rrType = rrType := congrArg RrsetKey.rrType (h.keysMatch _ rrset hlook)
        exact absurd (decide_eq_true htype) hnone
      | some found =>
        obtain ⟨entry, hentry, rfl⟩ := mem_map.mp (mem_of_find?_eq_some hfind)
        have htype := List.find?_some hfind
        have hentryKey := hkey entry hentry (of_decide_eq_true htype)
        have hfound := AList.mem_lookup_iff.mpr (mem_filter.mp hentry).1
        rw [hentryKey, hlook] at hfound
        rw [some.inj hfound]
  · rfl

/-- A snapshot has the RRsets of another, with the times to live of all records, its serial and
its SOA timers. -/
structure SameData (restored live : ZoneSnapshot platform) : Prop where
  rrsets : ∀ key, restored.rrsets.lookup key = live.rrsets.lookup key
  records : ∀ key, restored.transferRrsetRecordsByKey key = live.transferRrsetRecordsByKey key
  serial : restored.serial = live.serial
  soaTimers : restored.soaTimers = live.soaTimers

theorem Mirrors.lookup_eq (h : Mirrors Eq zoneApex qclass restored live) (key : RrsetKey) :
    restored.rrsets.lookup key = live.rrsets.lookup key :=
  eq_of_rel_eq (h.rrsets key)

theorem Mirrors.sameData (h : Mirrors Eq zoneApex qclass restored live)
    (hlive : Validated zoneApex qclass live) : SameData restored live := by
  obtain ⟨_, -, hrestored⟩ := h.validated.content
  obtain ⟨_, -, hcontent⟩ := hlive.content
  refine ⟨h.lookup_eq, fun key => ?_, h.serial, ?_⟩
  · unfold transferRrsetRecordsByKey
    rw [h.lookup_eq key]
    cases hlook : live.rrsets.lookup key with
    | none => rfl
    | some rrset =>
      have hcls := hcontent.cls_eq hlook
      refine map_congr_left fun rdata _ => ?_
      have httl : restored.recordTtlByOwnerKey key.owner key.cls key.rrType rrset.ttl rdata =
          live.recordTtlByOwnerKey key.owner key.cls key.rrType rrset.ttl rdata := by
        unfold recordTtlByOwnerKey
        rw [hcls]
        simp [hrestored.rrsetByNameKey, hcontent.rrsetByNameKey, h.lookup_eq]
      rw [httl]
  · rw [h.validated.soaTimers, hlive.soaTimers, h.validated.originKey, hlive.originKey]
    unfold soaTimersFromRrsets
    rw [h.lookup_eq]

end SameData

section Runs

variable {platform : Platform} {cache : ZonePersistence} {zoneApex : DomainName} {qclass : UInt16}
  {files : CacheFiles} {live : ZoneSnapshot platform}

open ZonePersistence

/-- The time to live of each RRset is the lowest of its records. Of the RRsets of a snapshot only
those of signatures can have another: a signature has the time to live of the RRset it covers, or
that of its own RRset when the zone has no such RRset. -/
def Settled (snapshot : ZoneSnapshot platform) : Prop :=
  ∀ key rrset, snapshot.rrsets.lookup key = some rrset →
    settledRrset snapshot key.owner rrset = rrset

/-- Stages that are each promoted before the next: the files and the last snapshot. The snapshots
that are staged in full, from the start or when the incremental path falls back, are among the
`allowed` ones. -/
inductive StagedRun (cache : ZonePersistence) (zoneApex : DomainName) (qclass : UInt16)
    (allowed : ZoneSnapshot platform → Prop) : CacheFiles → ZoneSnapshot platform → Prop
  | full (files : CacheFiles) {snapshot : ZoneSnapshot platform} {now : UInt64}
      {staged : StagedZoneCache}
      (valid : Validated zoneApex qclass snapshot)
        (fullStage : cache.stage now snapshot = .ok staged)
      (accepted : allowed snapshot) :
      StagedRun cache zoneApex qclass allowed (staged.promote.foldl FileStep.apply files) snapshot
  | incremental {files : CacheFiles} {previous snapshot : ZoneSnapshot platform} {now : UInt64}
      {staged : StagedZoneCache} {identity : ℕ} {qid : UInt16} {messages : List (List UInt8)}
      (run : StagedRun cache zoneApex qclass allowed files previous)
      (transfer : parseIxfrResponse identity qid zoneApex qclass previous messages =
      .ok (.updated snapshot)) (advances : Advances previous snapshot)
      (stage : cache.stageIncremental now files previous snapshot = .ok staged)
      (accepted : staged.finalPath = .checkpoint → allowed snapshot) :
      StagedRun cache zoneApex qclass allowed (staged.promote.foldl FileStep.apply files) snapshot

theorem kept_of_full {snapshot : ZoneSnapshot platform} {now : UInt64}
    {staged : StagedZoneCache} (hvalid : Validated zoneApex qclass snapshot)
    (hstage : cache.stage now snapshot = .ok staged)
    (hsettled : staged.finalPath = .checkpoint → Settled snapshot) (files : CacheFiles) :
    ∃ base entries active, Kept Eq cache zoneApex qclass
      (staged.promote.foldl FileStep.apply files) snapshot base entries active := by
  obtain ⟨bytes, rfl, hfile⟩ := checkpointFile_of_stage hvalid hstage
  refine ⟨_, _, _, kept_of_checkpoint (fun _ _ heq => heq ▸ rfl) hvalid (hsettled rfl)
    ⟨⟨bytes, rfl, hfile⟩, .absent⟩⟩

theorem StagedRun.kept (hdigest : cache.DigestLength)
    (h : StagedRun cache zoneApex qclass Settled files live) :
    ∃ base entries active, Kept Eq cache zoneApex qclass files live base entries active := by
  induction h with
  | full files hvalid hstage hsettled => exact kept_of_full hvalid hstage (fun _ => hsettled) files
  | @incremental files previous snapshot now staged identity qid messages _ htransfer hadvances
      hstage hsettled ih =>
    obtain ⟨base, entries, active, hkept⟩ := ih
    have hvalid := validated_of_ixfr hkept.validated htransfer
    rcases stageIncremental_spec hdigest hkept.holding hvalid hkept.validated
      (soundLineage_of_ixfr htransfer)
      hkept.base_serial hstage with hfull | ⟨oldSerial, newSerial, changes, journal, payload, bytes,
      hold, hnew, hchanges, rfl,
        hfile, hcontinues, hentries⟩
    · exact kept_of_full hvalid hfull hsettled files
    · have hholding : Holding cache zoneApex ⟨files.checkpoint, some bytes,
          none⟩ base journal.entries
          (cache.sha256 payload) :=
        ⟨hkept.holding.checkpoint, .current hfile hcontinues.same hcontinues.serial⟩
      rw [hentries] at hholding
      exact ⟨_, _, _, hkept.journal (fun _ => rfl) (fun _ _ heq => heq ▸ rfl) hvalid hadvances hold
        hnew hchanges hholding⟩

/-- After a run the cache restores the last snapshot. -/
theorem restore_of_stagedRun (hdigest : cache.DigestLength)
    (h : StagedRun cache zoneApex qclass Settled files live)
    {expectedOrigin : DomainName} (horigin : expectedOrigin.canonicalKey = zoneApex.canonicalKey)
    (identity : ℕ) (now : UInt64) :
    ∃ restored, cache.restore identity now expectedOrigin qclass files = .ok (some restored) ∧
      SameData restored.snapshot live := by
  obtain ⟨base, entries, active, hkept⟩ := h.kept hdigest
  obtain ⟨restored, time, hreplay, hmirrors⟩ := hkept.replays identity
  have hsame := hmirrors.sameData hkept.validated
  refine ⟨_, hkept.holding.restore hdigest horigin hreplay now, ?_⟩
  unfold restoredAt
  dsimp only
  split
  · exact ⟨hsame.rrsets, hsame.records, hsame.serial, hsame.soaTimers⟩
  · exact hsame

end Runs

section Samples

open Bytes Fields ZonePersistence

def sampleDigest (bytes : List UInt8) : List UInt8 :=
  let mixed :=
    be64 (bytes.foldl (fun state byte => state * 1099511628211 + byte.toUInt64 +
      1) 14695981039346656037)
  mixed ++ mixed ++ mixed ++ mixed

def sampleCache : ZonePersistence := ⟨sampleDigest, 65536⟩

theorem digestLength_sampleCache : sampleCache.DigestLength := by
  intro bytes
  show (sampleDigest bytes).length = 32
  simp [sampleDigest]

/-- A signature at the apex over the RRset of a type. -/
def sampleSignature (covered : UInt16) : ResourceRecord :=
  ⟨sampleApex, rrsig, 1, 300, be16 covered ++ List.replicate 16 0 ++ [0, 1]⟩

/-- An address, its signature, and a signature over text that the zone does not have. -/
def signedRecords : List ResourceRecord :=
  [sampleSoa 1, sampleNs, sampleAddress 100 1, sampleSignature RecordType.a, sampleSignature txt]

/-- The files after a snapshot is staged in full. -/
def filesOf (now : UInt64) (snapshot : ZoneSnapshot plainPlatform) : CacheFiles :=
  StagedZoneCache.promote ⟨.checkpoint, (checkpointOf now snapshot).write sampleDigest,
    true⟩ |>.foldl FileStep.apply ⟨none, none, none⟩

def ttlsOf (snapshot : ZoneSnapshot plainPlatform) : List UInt32 :=
  (snapshot.transferRrsetRecordsByKey ⟨sampleApex.canonicalKey, rrsig, 1⟩).map ResourceRecord.ttl

/-- The times to live of the signatures at the apex that come back from the files. -/
def restoredTtls (files : CacheFiles) : Option (List UInt32) :=
  (sampleCache.restore 0 6 sampleApex 1 files).toOption.join.map fun restored =>
    ttlsOf restored.snapshot

/-- The signature over the missing text comes back with the time to live of the address. -/
theorem restore_shortens_ttl :
    StagedRun sampleCache sampleApex 1 (fun _ => True) (filesOf 5 (sampleZone 1 signedRecords))
      (sampleZone 1 signedRecords) ∧
      ttlsOf (sampleZone 1 signedRecords) = [100, 300] ∧
      restoredTtls (filesOf 5 (sampleZone 1 signedRecords)) = some [100, 100] := by
  have hstage : sampleCache.stage 5 (sampleZone 1 signedRecords) =
      .ok ⟨.checkpoint, (checkpointOf 5 (sampleZone 1 signedRecords)).write sampleDigest,
      true⟩ := by decide +kernel
  exact ⟨.full _ ((fullTransfer_of_read 0 [responseWire axfr (signedRecords ++ [sampleSoa 1])]
    (by decide +kernel) (by decide +kernel) 0).accepted.validated rfl) hstage trivial,
    by decide +kernel, by decide +kernel⟩

/-- A zone, and the zone after a difference that takes an address away. -/
def sampleBefore : ZoneSnapshot plainPlatform := sampleZone 1 (sampleRecords 300)

def updatedOf {platform : Platform} :
    Except IxfrError (IxfrResponse platform) → Option (ZoneSnapshot platform)
  | .ok (.updated snapshot) => some snapshot
  | _ => none

theorem eq_updated_of_updatedOf {platform : Platform}
    {response : Except IxfrError (IxfrResponse platform)}
    {snapshot : ZoneSnapshot platform} (h : updatedOf response = some snapshot) :
    response = .ok (.updated snapshot) := by
  unfold updatedOf at h
  split at h
  · rw [some.inj h]
  · cases h

def sampleTransfer : Except IxfrError (IxfrResponse plainPlatform) :=
  parseIxfrResponse 1 0 sampleApex 1 sampleBefore [responseWire ixfr (sampleAnswers 300)]

def sampleAfter : ZoneSnapshot plainPlatform := (updatedOf sampleTransfer).getD sampleBefore

theorem sampleTransfer_eq : sampleTransfer = .ok (.updated sampleAfter) := by
  have hsome : (updatedOf sampleTransfer).isSome = true := by decide +kernel
  obtain ⟨updated, hupdated⟩ := isSome_iff_exists.mp hsome
  rw [sampleAfter, hupdated]
  exact eq_updated_of_updatedOf hupdated

def pathOf : Outcome ZonePersistenceError StagedZoneCache → Option CacheFile
  | .ok staged => some staged.finalPath
  | _ => none

theorem exists_of_pathOf {outcome : Outcome ZonePersistenceError StagedZoneCache} {path : CacheFile}
    (h : pathOf outcome = some path) :
    ∃ staged, outcome = .ok staged ∧ staged.finalPath = path := by
  unfold pathOf at h
  split at h
  · exact ⟨_, rfl, some.inj h⟩
  · cases h

theorem validated_sampleBefore : Validated sampleApex 1 sampleBefore :=
  (fullTransfer_of_read 0 [responseWire axfr (sampleRecords 300 ++ [sampleSoa 1])]
    (by decide +kernel) (by decide +kernel) 0).accepted.validated rfl

theorem advances_sample : Advances sampleBefore sampleAfter := by
  have hbefore : sampleBefore.serial = some 1 := rfl
  have hafter : sampleAfter.serial = some 2 := by decide +kernel
  intro oldSerial newSerial hold hnew
  obtain rfl := some.inj (hold.symm.trans hbefore)
  obtain rfl := some.inj (hnew.symm.trans hafter)
  decide

/-- A checkpoint and a journal of one entry. -/
theorem restore_of_stagedRun_sample :
    ∃ files, StagedRun sampleCache sampleApex 1 Settled files sampleAfter ∧
      sampleAfter.serial = some 2 ∧
      ∃ restored, sampleCache.restore 0 7 sampleApex 1 files = .ok (some restored) ∧
        SameData restored.snapshot sampleAfter := by
  have hstage : sampleCache.stage 5 sampleBefore =
      .ok ⟨.checkpoint, (checkpointOf 5 sampleBefore).write sampleDigest, true⟩ := by decide +kernel
  have hentries : ∀ entry ∈ sampleBefore.rrsets.entries,
      settledRrset sampleBefore entry.1.owner entry.2 = entry.2 := by
    decide +kernel
  have hsettled : Settled sampleBefore :=
    fun key rrset hlookup => hentries ⟨key, rrset⟩ (AList.mem_lookup_iff.mp hlookup)
  have hfirst : StagedRun sampleCache sampleApex 1 Settled (filesOf 5 sampleBefore) sampleBefore :=
    .full _ validated_sampleBefore hstage hsettled
  obtain ⟨staged, hstaged, hpath⟩ : ∃ staged,
      sampleCache.stageIncremental 6 (filesOf 5 sampleBefore) sampleBefore sampleAfter =
      .ok staged ∧ staged.finalPath = .journal := exists_of_pathOf (by decide +kernel)
  have hrun := hfirst.incremental sampleTransfer_eq advances_sample hstaged fun hother =>
    absurd (hpath.symm.trans hother) (by decide)
  exact ⟨_, hrun, by decide +kernel, restore_of_stagedRun digestLength_sampleCache hrun rfl 0 7⟩

end Samples

end BoronDns
