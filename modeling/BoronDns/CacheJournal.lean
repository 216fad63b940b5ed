import BoronDns.SnapshotChanges
import BoronDns.ZoneCache

/-!
The files of a zone and what they hold: a checkpoint, and the entries of the journal
that belongs to it. A journal that names another checkpoint is left aside. The bytes
that are staged are those of the next checkpoint, or of the journal with one more entry.
-/

namespace BoronDns

open Bytes Fields List Except Nat

namespace ZonePersistence

section Files

variable {cache : ZonePersistence} {origin : DomainName} {journal : DecodedJournal}

def DigestLength (cache : ZonePersistence) : Prop := ∀ bytes, (cache.sha256 bytes).length = 32

theorem drop_digest (hdigest : cache.DigestLength) (payload : List UInt8) :
    (payload ++ cache.sha256 payload).drop ((payload ++ cache.sha256 payload).length - 32) =
      cache.sha256 payload ∧
      (payload ++ cache.sha256 payload).take
        ((payload ++ cache.sha256 payload).length - 32) = payload := by
  have hlen : (payload ++ cache.sha256 payload).length - 32 = payload.length := by
    rw [length_append, hdigest payload, Nat.add_sub_cancel]
  rw [hlen]
  exact ⟨drop_left, take_left⟩

theorem length_digest_le (hdigest : cache.DigestLength) (payload : List UInt8) :
    ¬ (payload ++ cache.sha256 payload).length < 32 := by
  rw [length_append, hdigest payload]
  omega

structure CheckpointFile (cache : ZonePersistence) (zoneApex : DomainName) (checkpoint : Checkpoint)
    (bytes : List UInt8) : Prop where
  written : bytes = checkpoint.write cache.sha256
  fits : checkpoint.Fits
  origin : checkpoint.origin.canonicalKey = zoneApex.canonicalKey
  size : bytes.length ≤ cache.maxFileBytes

structure JournalFile (cache : ZonePersistence) (zoneApex : DomainName) (journal : DecodedJournal)
    (payload bytes : List UInt8) : Prop where
  written : ∃ origin : DomainName, payload = journal.write origin ∧ origin.wireLen ≤ 255 ∧
    origin.canonicalKey = zoneApex.canonicalKey
  sealed : bytes = payload ++ cache.sha256 payload
  fits : journal.Fits
  size : bytes.length ≤ min cache.maxFileBytes maxJournalBytes

variable {zoneApex : DomainName} {checkpoint : Checkpoint} {payload bytes : List UInt8}

theorem CheckpointFile.cacheChecksum (hdigest : cache.DigestLength)
    (h : CheckpointFile cache zoneApex checkpoint bytes) :
    cache.cacheChecksum bytes = .ok (cache.sha256 checkpoint.body) := by
  have hsize := h.size
  rw [h.written, Checkpoint.write] at hsize ⊢
  unfold ZonePersistence.cacheChecksum
  rw [if_neg (not_or.mpr ⟨length_digest_le hdigest _, not_lt.mpr hsize⟩), (drop_digest hdigest _).1]

theorem JournalFile.readJournalBytes (hdigest : cache.DigestLength)
    (h : JournalFile cache zoneApex journal payload bytes)
    (horigin : origin.canonicalKey = zoneApex.canonicalKey) :
    cache.readJournalBytes origin bytes = .ok (payload, journal, cache.sha256 payload) := by
  have hsize := h.size
  obtain ⟨written, hwritten, hfits, hkey⟩ := h.written
  rw [h.sealed] at hsize ⊢
  unfold ZonePersistence.readJournalBytes
  rw [if_neg (not_or.mpr ⟨length_digest_le hdigest _, not_lt.mpr hsize⟩)]
  rw [(drop_digest hdigest payload).1, (drop_digest hdigest payload).2, if_neg (by simp), hwritten,
    decodeJournal_write h.fits hfits (hkey.trans horigin.symm)]
  rfl

theorem length_journalHead {baseChecksum : List UInt8} (hchecksum : baseChecksum.length = 32)
    (baseSerial : UInt32) :
    (journalHead origin baseChecksum baseSerial).length = journalMagic.length + 2 +
      origin.toWire.length + 32 + 4 := by
  simp only [journalHead, length_append, length_writeName, hchecksum, length_be32,
    origin.length_toWire]
  omega

theorem take_drop_of_append {head count : List UInt8} (hcount : count.length = 4)
    (rest : List UInt8) :
    (head ++ count ++ rest).take head.length = head ∧ (head ++ count ++ rest).drop
      (head.length + 4) = rest := by
  have hlen : head.length + 4 = (head ++ count).length := by rw [length_append, hcount]
  refine ⟨?_, by rw [hlen, drop_left]⟩
  rw [append_assoc, take_left]

/-- The entry count is replaced and the entry written behind the others. -/
theorem appendEntry_write {written : DomainName} (hchecksum : journal.baseChecksum.length = 32)
    (hlen : origin.toWire.length = written.toWire.length) (entry : JournalEntry) :
    appendEntry (journal.write written) origin journal.entries.length (writeEntry entry) =
      ({ journal with entries := journal.entries ++ [entry] } : DecodedJournal).write written := by
  have hhead := @length_journalHead written _ hchecksum journal.baseSerial
  obtain ⟨htake, hdrop⟩ :=
    @take_drop_of_append (journalHead written journal.baseChecksum journal.baseSerial) _
    (length_be32 (UInt32.ofNat journal.entries.length)) (journal.entries.flatMap writeEntry)
  unfold appendEntry DecodedJournal.write
  dsimp only
  rw [hlen, ← hhead, htake, hdrop, length_append, length_singleton, flatMap_append,
    flatMap_singleton, ← append_assoc]

end Files

section Holding

variable {platform : Platform} {cache : ZonePersistence} {zoneApex : DomainName} {qclass : UInt16}
  {files : CacheFiles} {base : Checkpoint} {entries : List JournalEntry} {active : List UInt8}

/-- What the journal file of a checkpoint amounts to: no entries when there is no journal or one
of another checkpoint, else its entries; and the digest of the file that says so. -/
inductive JournalState (cache : ZonePersistence) (zoneApex : DomainName) (base : Checkpoint) :
    Option (List UInt8) → List JournalEntry → List UInt8 → Prop
  | absent : JournalState cache zoneApex base none [] (cache.sha256 base.body)
  | stale {journal : DecodedJournal} {payload bytes : List UInt8}
      (file : JournalFile cache zoneApex journal payload bytes)
      (other : journal.baseChecksum ≠ cache.sha256 base.body) :
      JournalState cache zoneApex base (some bytes) [] (cache.sha256 base.body)
  | current {journal : DecodedJournal} {payload bytes : List UInt8}
      (file : JournalFile cache zoneApex journal payload bytes) (same : journal.baseChecksum =
      cache.sha256 base.body) (serial : base.serial = some journal.baseSerial) :
      JournalState cache zoneApex base (some bytes) journal.entries (cache.sha256 payload)

/-- The files hold a checkpoint and the entries of its journal. -/
structure Holding (cache : ZonePersistence) (zoneApex : DomainName) (files : CacheFiles)
    (base : Checkpoint) (entries : List JournalEntry) (active : List UInt8) : Prop where
  checkpoint : ∃ bytes, files.checkpoint = some bytes ∧ CheckpointFile cache zoneApex base bytes
  journal : JournalState cache zoneApex base files.journal entries active

/-- What the entries make of the checkpoint. -/
def replay (identity : ℕ) (qclass : UInt16) (base : Checkpoint) (entries : List JournalEntry) :
    Except ZonePersistenceError (ZoneSnapshot platform × UInt64) := do
  let snapshot ← (validatedPersistedZoneSnapshot identity base.origin qclass base.serial
    base.records).mapError (.invalidZone .checkpoint)
  entries.foldlM (replayEntry base.origin qclass) (snapshot, base.persistedUnixSecs)

variable {origin : DomainName}

theorem Holding.activeCacheChecksum (hdigest : cache.DigestLength)
    (h : Holding cache zoneApex files base entries active)
    (horigin : origin.canonicalKey = zoneApex.canonicalKey) :
    cache.activeCacheChecksum origin files = .ok active := by
  obtain ⟨bytes, hbytes, hfile⟩ := h.checkpoint
  unfold ZonePersistence.activeCacheChecksum
  rw [hbytes]
  dsimp only
  rw [hfile.cacheChecksum hdigest, ok_bind_eq]
  obtain ⟨checkpoint, journalFile, freshness⟩ := files
  cases h.journal with
  | absent => rfl
  | stale file hother =>
    dsimp only
    rw [file.readJournalBytes hdigest horigin, ok_bind_eq]
    rw [if_neg hother]
  | current file hsame =>
    dsimp only
    rw [file.readJournalBytes hdigest horigin, ok_bind_eq]
    rw [if_pos hsame]

variable {snapshot : ZoneSnapshot platform} {time : UInt64}

/-- Restoring replays the entries that the files hold. -/
theorem Holding.restoreJournal (hdigest : cache.DigestLength)
    (h : Holding cache zoneApex files base entries active) (hserial : snapshot.serial = base.serial)
    {state : ZoneSnapshot platform × UInt64}
    (hreplay : entries.foldlM (replayEntry base.origin qclass) (snapshot, time) = .ok state) :
    cache.restoreJournal base.origin qclass snapshot time (cache.sha256 base.body) files.journal =
      .ok (state, active) := by
  obtain ⟨bytes, hbytes, hfile⟩ := h.checkpoint
  obtain ⟨checkpoint, journalFile, freshness⟩ := files
  cases h.journal with
  | absent =>
    obtain rfl := ok.inj hreplay
    rfl
  | stale file hother =>
    obtain rfl := ok.inj hreplay
    unfold ZonePersistence.restoreJournal
    dsimp only
    rw [file.readJournalBytes hdigest hfile.origin, ok_bind_eq]
    rw [if_pos hother]
  | current file hsame hbase =>
    unfold ZonePersistence.restoreJournal
    dsimp only
    rw [file.readJournalBytes hdigest hfile.origin, ok_bind_eq]
    rw [if_neg (not_not.mpr hsame), if_neg (not_not.mpr (hserial.trans hbase)), hreplay]
    rfl

theorem serial_of_validatedPersistedZoneSnapshot {identity : ℕ} {serial : Option UInt32}
    {records : List ResourceRecord}
    (h : validatedPersistedZoneSnapshot identity origin qclass serial records = .ok snapshot) :
    snapshot.serial = serial := by
  obtain ⟨_, -, h⟩ := bind_eq_ok_iff.mp h
  obtain ⟨_, -, h⟩ := bind_eq_ok_iff.mp h
  split at h
  · cases h
  obtain ⟨number, -, h⟩ := bind_eq_ok_iff.mp h
  split at h
  · cases h
  next hserial =>
    obtain rfl := ok.inj h
    exact (not_not.mp hserial).symm

/-- Restoring gives what the entries make of the checkpoint, at the time that is on record. -/
theorem Holding.restore (hdigest : cache.DigestLength)
    (h : Holding cache zoneApex files base entries active)
    {expectedOrigin : DomainName} (horigin : expectedOrigin.canonicalKey = zoneApex.canonicalKey)
    {identity : ℕ} (hreplay : replay identity qclass base entries = .ok (snapshot, time))
    (now : UInt64) : cache.restore identity now expectedOrigin qclass files =
      .ok (some (restoredAt now snapshot
        (max ((cache.readFreshness snapshot.serial active files.freshness).getD time) time))) := by
  obtain ⟨bytes, hbytes, hfile⟩ := h.checkpoint
  obtain ⟨start, hstart, hfold⟩ := bind_eq_ok_iff.mp hreplay
  have hserial := serial_of_validatedPersistedZoneSnapshot (mapError_eq_ok_iff.mp hstart)
  have hread :=
    readCheckpoint_write cache.sha256 hdigest hfile.fits (hfile.origin.trans horigin.symm)
  rw [← hfile.written] at hread
  unfold ZonePersistence.restore
  rw [hbytes]
  dsimp only
  rw [if_neg (not_lt.mpr hfile.size), hread, ok_bind_eq]
  rw [hstart, ok_bind_eq, h.restoreJournal hdigest hserial hfold, ok_bind_eq]

end Holding

section Staging

variable {platform : Platform} {cache : ZonePersistence} {zoneApex : DomainName} {qclass : UInt16}
  {files : CacheFiles} {base : Checkpoint} {entries : List JournalEntry} {active : List UInt8}
  {snapshot previous : ZoneSnapshot platform} {now : UInt64} {staged : StagedZoneCache}

theorem wireLen_origin_le (h : Validated zoneApex qclass snapshot) :
    snapshot.origin.wireLen ≤ 255 := by
  obtain ⟨serial, -, hcontent⟩ := h.content
  obtain ⟨rrset, rdata, hlook, hrdatas, -⟩ := hcontent.soa
  have hfits := ((hcontent.stored _ rrset hlook).content _
    (mem_records.mpr ⟨rdata, by rw [hrdatas]; exact mem_singleton_self _, rfl⟩)).ownerFits
  have hown : rrset.owner.canonicalKey = zoneApex.canonicalKey :=
    congrArg RrsetKey.owner (hcontent.keysMatch _ rrset hlook)
  rwa [DomainName.wireLen_eq_of_canonicalKey (h.origin.trans hown.symm)]

/-- What is staged for a snapshot in full is a checkpoint of it. -/
theorem checkpointFile_of_stage (hvalid : Validated zoneApex qclass snapshot)
    (h : cache.stage now snapshot = .ok staged) :
    ∃ bytes, staged = ⟨.checkpoint, bytes, true⟩ ∧ CheckpointFile cache zoneApex
      (checkpointOf now snapshot) bytes := by
  obtain ⟨serial, -, hcontent⟩ := hvalid.content
  unfold ZonePersistence.stage at h
  split at h
  · cases h
  rename_i hcount
  dsimp only at h
  split at h
  · cases h
  rename_i hsize
  obtain rfl := ok.inj h
  refine ⟨_, rfl, rfl, ⟨wireLen_origin_le hvalid, ?_, ?_⟩, hvalid.origin, not_lt.mp hsize⟩
  · exact (snapshot.length_persistenceRecords).trans_le (not_lt.mp hcount)
  · intro record hrec
    have hrec := hcontent.content_persistenceRecords record hrec
    exact ⟨hrec.ownerFits, hrec.rdataFits⟩

theorem replay_checkpointOf (hvalid : Validated zoneApex qclass snapshot) (identity : ℕ) :
    replay identity qclass (checkpointOf now snapshot) [] = .ok
      (settledSnapshot identity snapshot.origin snapshot, now) := by
  obtain ⟨serial, hserial, hcontent⟩ := hvalid.content
  have hread :=
    validatedPersistedZoneSnapshot_of_content (hcontent.congr_apex hvalid.origin.symm)
      hserial identity
  unfold replay checkpointOf
  rw [hread]
  rfl

/-- The snapshot of a checkpoint mirrors the one that was staged. -/
theorem mirrors_settledSnapshot {rel : Rrset → Rrset → Prop}
    (hbut : ∀ a b, rel a b → SameButTtl a b) (hvalid : Validated zoneApex qclass snapshot)
    (hsettled : ∀ key rrset, snapshot.rrsets.lookup key = some rrset →
      rel (settledRrset snapshot key.owner rrset) rrset)
    (identity : ℕ) :
    Mirrors rel zoneApex qclass (settledSnapshot identity snapshot.origin snapshot) snapshot := by
  obtain ⟨serial, hserial, hcontent⟩ := hvalid.content
  have hkey : snapshot.origin.toAsciiLowercased.canonicalKey = zoneApex.canonicalKey :=
    (DomainName.canonicalKey_toAsciiLowercased _).trans hvalid.origin
  have hrel : ∀ key,
      Option.Rel rel ((settledSnapshot identity snapshot.origin snapshot).rrsets.lookup key)
      (snapshot.rrsets.lookup key) := by
    intro key
    show Option.Rel rel ((rrsetsByKey (rrsetsFromRecords snapshot.persistenceRecords)).lookup key) _
    rw [hcontent.lookup_settled key]
    cases hlook : snapshot.rrsets.lookup key with
    | none => exact .none
    | some rrset => exact .some (hsettled key rrset hlook)
  refine ⟨⟨hkey, hkey, rfl, ZoneSnapshot.soaRecordCount_active .., serial, hserial, ?_⟩, hrel, rfl⟩
  exact hcontent.congr (sameRrsets_of_rel hbut hrel)

variable {entry : JournalEntry}

theorem serialChain_append {serial : UInt32} (h : SerialChain serial entries)
    (hlast : (entries.getLast?).elim serial JournalEntry.newSerial = entry.oldSerial) :
    SerialChain serial (entries ++ [entry]) := by
  induction entries generalizing serial with
  | nil => exact ⟨hlast.symm, trivial⟩
  | cons first rest ih =>
    refine ⟨h.1, ih h.2 ?_⟩
    cases rest with
    | nil => exact hlast
    | cons second rest => exact hlast

/-- The entry for the changes between two snapshots fits in its fields. -/
theorem entryFits_of_changes {changes : List PersistenceRrsetChange}
    (hsnapshot : Validated zoneApex qclass snapshot)
    (hprev : Validated zoneApex qclass previous)
    (hchanges : ChangesBetween previous snapshot changes)
    {oldSerial newSerial : UInt32} {bytes : List UInt8}
    (h : encodeJournalEntry oldSerial newSerial now changes = .ok bytes) :
    bytes = writeEntry ⟨oldSerial, newSerial, now, changes⟩ ∧ EntryFits
      ⟨oldSerial, newSerial, now, changes⟩ := by
  obtain ⟨serial, -, hcontent⟩ := hsnapshot.content
  unfold encodeJournalEntry at h
  split at h
  · cases h
  rename_i hcount
  obtain ⟨parts, hparts, h⟩ := bind_eq_ok_iff.mp h
  obtain ⟨hflatten, hencodes⟩ := mapM_eq_ok (fun change bytes => encodeChange_eq_ok) hparts
  refine ⟨by rw [← ok.inj h, hflatten, writeEntry], not_le.mp hcount, hchanges.covers.distinct,
    fun change hchange => ?_⟩
  obtain ⟨stored, hown, -, hstored⟩ := hchanges.stored hsnapshot hprev hchange
  obtain ⟨rdata, hrdata⟩ := exists_mem_of_ne_nil _ hstored.nonempty
  have hfits := (hstored.content _ (mem_records.mpr ⟨rdata, hrdata, rfl⟩)).ownerFits
  refine ⟨hown ▸ hfits, fun rrset hrrset => ?_⟩
  obtain ⟨hnonempty, hlen, hrdatas⟩ := hencodes change hchange rrset hrrset
  have hlook := (hchanges.replacement change hchange).symm.trans hrrset
  have hkey := hcontent.keysMatch _ rrset hlook
  exact ⟨hchanges.owner_eq hchange hrrset, congrArg RrsetKey.rrType hkey,
    congrArg RrsetKey.cls hkey, hnonempty, hlen, hrdatas⟩

/-- A journal that continues the checkpoint, as it is before its digest is written. -/
structure Continues (cache : ZonePersistence) (zoneApex : DomainName) (base : Checkpoint)
    (journal : DecodedJournal) (payload : List UInt8) : Prop where
  written : ∃ origin : DomainName, payload = journal.write origin ∧ origin.wireLen ≤ 255 ∧
    origin.canonicalKey = zoneApex.canonicalKey
  fits : journal.Fits
  same : journal.baseChecksum = cache.sha256 base.body
  serial : base.serial = some journal.baseSerial

theorem Holding.openJournal (hdigest : cache.DigestLength)
    (h : Holding cache zoneApex files base entries active)
    (hvalid : Validated zoneApex qclass snapshot) {oldSerial : UInt32}
    (hserial : entries = [] → base.serial = some oldSerial) :
    cache.openJournal files snapshot.origin (cache.sha256 base.body) oldSerial = .ok none ∨
    ∃ journal payload, Continues cache zoneApex base journal payload ∧ journal.entries = entries ∧
      cache.openJournal files snapshot.origin (cache.sha256 base.body) oldSerial =
        .ok (some (payload, entries.length, currentSerial journal)) := by
  obtain ⟨checkpoint, journalFile, freshness⟩ := files
  unfold ZonePersistence.openJournal
  cases h.journal with
  | absent =>
    refine .inr ⟨⟨cache.sha256 base.body, oldSerial, []⟩, _,
      ⟨⟨_, rfl, wireLen_origin_le hvalid, hvalid.origin⟩, ?_, rfl, hserial rfl⟩, rfl, rfl⟩
    exact ⟨hdigest _, zero_le _, trivial, by simp⟩
  | stale file hother =>
    dsimp only
    rw [file.readJournalBytes hdigest hvalid.origin, ok_bind_eq]
    rw [if_pos hother]
    exact .inl rfl
  | @current journal payload bytes file hsame hbase =>
    dsimp only
    rw [file.readJournalBytes hdigest hvalid.origin, ok_bind_eq]
    rw [if_neg (not_not.mpr hsame)]
    exact .inr ⟨journal, payload, ⟨file.written, file.fits, hsame, hbase⟩, rfl, rfl⟩

/-- Appending the entry that takes the journal to the next serial. -/
theorem Continues.append {journal : DecodedJournal} {payload : List UInt8}
    (h : Continues cache zoneApex base journal payload)
    {origin : DomainName} (horigin : origin.canonicalKey = zoneApex.canonicalKey)
    (hentry : EntryFits entry) (hserial : currentSerial journal = entry.oldSerial)
    (hcount : journal.entries.length < maxJournalEntries) :
    Continues cache zoneApex base { journal with entries := journal.entries ++ [entry] }
      (appendEntry payload origin journal.entries.length (writeEntry entry)) := by
  obtain ⟨written, rfl, hfits, hkey⟩ := h.written
  have hlen : origin.toWire.length = written.toWire.length := by
    rw [origin.length_toWire, written.length_toWire,
      DomainName.wireLen_eq_of_canonicalKey (horigin.trans hkey.symm)]
  refine ⟨⟨written, appendEntry_write h.fits.baseChecksum hlen entry, hfits, hkey⟩, ?_, h.same,
    h.serial⟩
  refine ⟨h.fits.baseChecksum, ?_, serialChain_append h.fits.chain hserial, ?_⟩
  · rw [length_append, length_singleton]
    exact hcount
  · intro other hother
    rcases mem_append.mp hother with hother | hother
    · exact h.fits.entries other hother
    · rw [mem_singleton.mp hother]
      exact hentry

/-- What is staged for changes: a checkpoint of the new snapshot, or the journal with one more
entry. -/
theorem stageChanges_spec (hdigest : cache.DigestLength)
    (h : Holding cache zoneApex files base entries active)
    (hsnapshot : Validated zoneApex qclass snapshot)
    (hprev : Validated zoneApex qclass previous) {changes : List PersistenceRrsetChange}
    (hchanges : ChangesBetween previous snapshot changes)
    {oldSerial newSerial : UInt32} (hserial : entries = [] → base.serial = some oldSerial)
    (hstaged : cache.stageChanges now files snapshot oldSerial newSerial changes = .ok staged) :
    cache.stage now snapshot = .ok staged ∨
    ∃ journal payload bytes, staged = ⟨.journal, bytes, false⟩ ∧
      JournalFile cache zoneApex journal payload bytes ∧
      Continues cache zoneApex base journal payload ∧ journal.entries = entries ++
        [⟨oldSerial, newSerial, now, changes⟩] := by
  obtain ⟨bytes, hbytes, hfile⟩ := h.checkpoint
  unfold ZonePersistence.stageChanges at hstaged
  rw [hbytes] at hstaged
  dsimp only at hstaged
  rw [hfile.cacheChecksum hdigest, ok_bind_eq] at hstaged
  rcases h.openJournal hdigest hsnapshot hserial with hopen | ⟨journal, payload, hcontinues,
    hentries, hopen⟩
  · rw [hopen, ok_bind_eq] at hstaged
    exact .inl hstaged
  rw [hopen, ok_bind_eq] at hstaged
  dsimp only at hstaged
  split at hstaged
  · exact .inl hstaged
  rename_i hroom
  rw [not_or, not_not, not_le] at hroom
  obtain ⟨entry, hentry, hstaged⟩ := bind_eq_ok_iff.mp hstaged
  obtain ⟨rfl, hfits⟩ :=
    entryFits_of_changes hsnapshot hprev hchanges (mapError_eq_ok_iff.mp hentry)
  split at hstaged
  · exact .inl hstaged
  rename_i hsize
  obtain rfl := ok.inj hstaged
  have happended := hcontinues.append hsnapshot.origin hfits hroom.1 (hentries ▸ hroom.2)
  rw [hentries] at happended
  exact .inr ⟨_, _, _, rfl, ⟨happended.written, rfl, happended.fits, not_lt.mp hsize⟩, happended,
    rfl⟩

theorem stageIncremental_spec (hdigest : cache.DigestLength)
    (h : Holding cache zoneApex files base entries active)
    (hsnapshot : Validated zoneApex qclass snapshot)
    (hprev : Validated zoneApex qclass previous) (hlineage : SoundLineage previous snapshot)
    (hserial : entries = [] → base.serial = previous.serial)
    (hstaged : cache.stageIncremental now files previous snapshot = .ok staged) :
    cache.stage now snapshot = .ok staged ∨
    ∃ oldSerial newSerial changes journal payload bytes, previous.serial = some oldSerial ∧
      snapshot.serial = some newSerial ∧ ChangesBetween previous snapshot changes ∧ staged =
        ⟨.journal, bytes, false⟩ ∧
      JournalFile cache zoneApex journal payload bytes ∧
      Continues cache zoneApex base journal payload ∧
      journal.entries = entries ++ [⟨oldSerial, newSerial, now, changes⟩] := by
  have hof : ∀ x : Except ZonePersistenceError StagedZoneCache, Outcome.ofExcept id x = .ok staged →
      x = .ok staged := by
    intro x hx
    cases x with
    | error error => cases hx
    | ok value => rw [Outcome.ok.inj hx]
  obtain ⟨newSerial, hnew, hcontent⟩ := hsnapshot.content
  obtain ⟨oldSerial, hold, hbefore⟩ := hprev.content
  unfold ZonePersistence.stageIncremental at hstaged
  rw [hold, hnew] at hstaged
  obtain ⟨changes, hfrom, hstaged⟩ := Outcome.bind_eq_ok_iff.mp hstaged
  cases changes with
  | none => exact .inl (hof _ hstaged)
  | some changes =>
    have hchanges :=
      changesBetween_of_persistenceChangesFrom hcontent.keysMatch hbefore.keysMatch hlineage hfrom
    rcases stageChanges_spec hdigest h hsnapshot hprev hchanges
      (fun hempty => (hserial hempty).trans hold)
      (hof _ hstaged) with hfull | ⟨journal, payload, bytes, hrest⟩
    · exact .inl hfull
    · exact .inr ⟨oldSerial, newSerial, changes, journal, payload, bytes, hold, hnew, hchanges,
        hrest⟩

end Staging

end ZonePersistence

end BoronDns
