import BoronDns.PersistedZone

/-!
The last-good cache of a zone. A checkpoint is staged in full, or the changes since
it are staged as a journal; promotion puts the staged file in its place and takes away
the files that it makes obsolete. After a restart the zone is restored from the
checkpoint and the journal that belongs to it, if there is one.
-/

namespace BoronDns

open Bytes Fields

/-- The files of one zone in the cache directory. -/
structure CacheFiles where
  checkpoint : Option (List UInt8)
  journal : Option (List UInt8)
  freshness : Option (List UInt8)
  deriving DecidableEq

/-- One step on the files: a complete temporary file is renamed to its place, or a file is
unlinked. -/
inductive FileStep
  | rename (file : CacheFile) (bytes : List UInt8)
  | unlink (file : CacheFile)
  deriving DecidableEq

def CacheFiles.put (files : CacheFiles) (file : CacheFile) (content : Option (List UInt8)) :
    CacheFiles :=
  match file with
  | .checkpoint => { files with checkpoint := content }
  | .journal => { files with journal := content }
  | .freshness => { files with freshness := content }

def FileStep.apply (files : CacheFiles) : FileStep → CacheFiles
  | .rename file bytes => files.put file (some bytes)
  | .unlink file => files.put file none

/-- A complete file that waits to be promoted. -/
structure StagedZoneCache where
  finalPath : CacheFile
  bytes : List UInt8
  removeJournal : Bool
  deriving DecidableEq

def StagedZoneCache.promote (staged : StagedZoneCache) : List FileStep :=
  .rename staged.finalPath staged.bytes ::
    ((if staged.removeJournal then [.unlink .journal] else []) ++ [.unlink .freshness])

def maxJournalBytes : ℕ := 64 * 1024 * 1024

def freshnessMagic : List UInt8 := [66, 79, 82, 79, 78, 70, 48, 49]

structure RestoredZone (platform : Platform) where
  snapshot : ZoneSnapshot platform
  persistedUnixSecs : UInt64

/-- The cache of a zone, with the digest it uses and the largest file it reads or writes. -/
structure ZonePersistence where
  sha256 : List UInt8 → List UInt8
  maxFileBytes : ℕ

namespace ZonePersistence

variable {platform : Platform} (cache : ZonePersistence)

section Staging

variable (now : UInt64) (snapshot : ZoneSnapshot platform)

def checkpointOf : Checkpoint :=
  ⟨snapshot.origin, snapshot.serial, now, snapshot.persistenceRecords⟩

def stage : Except ZonePersistenceError StagedZoneCache :=
  if maxRecords < snapshot.persistenceRecordCount then
    .error (.malformed .checkpoint "record count exceeds format limit")
  else
    -- by `length_persistenceRecords` the count in the file is the one that was checked
    let bytes := (checkpointOf now snapshot).write cache.sha256
    if cache.maxFileBytes < bytes.length then
      .error
        (.malformed .checkpoint "serialized zone exceeds the configured derived cache safety limit")
    else .ok ⟨.checkpoint, bytes, true⟩

/-- The digest at the end of a checkpoint file. -/
def cacheChecksum (bytes : List UInt8) : Except ZonePersistenceError (List UInt8) :=
  if bytes.length < 32 ∨ cache.maxFileBytes < bytes.length then
    .error (.malformed .checkpoint "not a bounded regular file")
  else .ok (bytes.drop (bytes.length - 32))

/-- The journal without its digest, what it says, and the digest. -/
def readJournalBytes (origin : DomainName) (bytes : List UInt8) :
    Except ZonePersistenceError (List UInt8 × DecodedJournal × List UInt8) :=
  if bytes.length < 32 ∨ min cache.maxFileBytes maxJournalBytes < bytes.length then
    .error (.malformed .journal "not a bounded regular file")
  else
    let payload := bytes.take (bytes.length - 32)
    let checksum := bytes.drop (bytes.length - 32)
    if cache.sha256 payload ≠ checksum then .error (.malformed .journal "journal checksum mismatch")
    else do
      let decoded ← (decodeJournal payload origin).mapError (.malformed .journal)
      .ok (payload, decoded, checksum)

def currentSerial (journal : DecodedJournal) : UInt32 :=
  (journal.entries.getLast?).elim journal.baseSerial JournalEntry.newSerial

/-- The journal bytes with one more entry, as they are before the digest. -/
def appendEntry (bytes : List UInt8) (origin : DomainName) (entries : ℕ) (entry : List UInt8) :
    List UInt8 :=
  let countOffset := journalMagic.length + 2 + origin.toWire.length + 32 + 4
  bytes.take countOffset ++ be32 (UInt32.ofNat (entries + 1)) ++
    bytes.drop (countOffset + 4) ++ entry

variable (files : CacheFiles)

/-- The journal that an entry is appended to, its number of entries and its last serial; `none`
when the journal there belongs to another checkpoint. -/
def openJournal (origin : DomainName) (baseChecksum : List UInt8) (oldSerial : UInt32) :
    Except ZonePersistenceError (Option (List UInt8 × ℕ × UInt32)) :=
  match files.journal with
  | none => .ok (some ((⟨baseChecksum, oldSerial, []⟩ : DecodedJournal).write origin, 0, oldSerial))
  | some journal => do
    let (bytes, decoded, _) ← cache.readJournalBytes origin journal
    if decoded.baseChecksum ≠ baseChecksum then .ok none
    else .ok (some (bytes, decoded.entries.length, currentSerial decoded))

/-- The part of `stage_incremental` behind the choice of changes. -/
def stageChanges (snapshot : ZoneSnapshot platform) (oldSerial newSerial : UInt32)
    (changes : List PersistenceRrsetChange) : Except ZonePersistenceError StagedZoneCache :=
  match files.checkpoint with
  | none => cache.stage now snapshot
  | some base => do
    let baseChecksum ← cache.cacheChecksum base
    match ← cache.openJournal files snapshot.origin baseChecksum oldSerial with
    | none => cache.stage now snapshot
    | some (bytes, entries, current) =>
      if current ≠ oldSerial ∨ maxJournalEntries ≤ entries then cache.stage now snapshot
      else do
        let entry ← (encodeJournalEntry oldSerial newSerial now changes).mapError
          (.malformed .journal)
        let payload := appendEntry bytes snapshot.origin entries entry
        let written := payload ++ cache.sha256 payload
        if min cache.maxFileBytes maxJournalBytes < written.length then cache.stage now snapshot
        else .ok ⟨.journal, written, false⟩

def stageIncremental (previous snapshot : ZoneSnapshot platform) :
    Outcome ZonePersistenceError StagedZoneCache :=
  match previous.serial, snapshot.serial with
  | some oldSerial, some newSerial => do
    match ← snapshot.persistenceChangesFrom previous with
    | none => .ofExcept id (cache.stage now snapshot)
    | some changes =>
      .ofExcept id (cache.stageChanges now files snapshot oldSerial newSerial changes)
  | _, _ => .ofExcept id (cache.stage now snapshot)

end Staging

section Freshness

variable (serial : Option UInt32)

def freshnessBody (cacheChecksum : List UInt8) (refreshed : UInt64) : List UInt8 :=
  freshnessMagic ++ writeSerial serial ++ cacheChecksum ++ be64 refreshed

def writeFreshness (cacheChecksum : List UInt8) (refreshed : UInt64) : List UInt8 :=
  freshnessBody serial cacheChecksum refreshed ++
    cache.sha256 (freshnessBody serial cacheChecksum refreshed)

def readFreshness (expectedSerial : Option UInt32) (expectedChecksum : List UInt8)
    (file : Option (List UInt8)) : Option UInt64 := do
  let bytes ← file
  if bytes.length ≠ freshnessMagic.length + (writeSerial expectedSerial).length + 32 +
    8 + 32 then none
  else do
    let (found, rest) ← (take () freshnessMagic.length bytes).toOption
    let (serial, rest) ← (readSerial rest).toOption
    let (checksum, rest) ← (take () 32 rest).toOption
    if found ≠ freshnessMagic ∨ serial ≠ expectedSerial ∨ checksum ≠ expectedChecksum then none
    else do
      let (refreshed, stored) ← (u64 () rest).toOption
      if cache.sha256 (bytes.take (bytes.length - stored.length)) =
        stored.take 32 then some refreshed else none

/-- The digest of the journal that belongs to the checkpoint, or of the checkpoint. -/
def activeCacheChecksum (origin : DomainName) (files : CacheFiles) :
    Except ZonePersistenceError (List UInt8) :=
  match files.checkpoint with
  | none => .error (.io .checkpoint)
  | some base => do
    let baseChecksum ← cache.cacheChecksum base
    match files.journal with
    | none => .ok baseChecksum
    | some journal => do
      let (_, decoded, journalChecksum) ← cache.readJournalBytes origin journal
      .ok (if decoded.baseChecksum = baseChecksum then journalChecksum else baseChecksum)

/-- `renew_freshness`: the steps on the files that it takes. -/
def renewFreshness (now : UInt64) (origin : DomainName) (serial : Option UInt32)
    (files : CacheFiles) : Except ZonePersistenceError (List FileStep) := do
  let checksum ← cache.activeCacheChecksum origin files
  .ok [.rename .freshness (cache.writeFreshness serial checksum now)]

end Freshness

section Restoring

variable (origin : DomainName)

/-- A snapshot that is being brought up to date from the journal, and the time of its last entry. -/
def replayEntry (qclass : UInt16) (state : ZoneSnapshot platform × UInt64)
    (entry : JournalEntry) : Except ZonePersistenceError (ZoneSnapshot platform × UInt64) :=
  if state.1.serial ≠ some entry.oldSerial then
    .error (.malformed .journal "journal serial chain mismatch")
  else do
    let updated :=
      state.1.withPersistenceChanges (state.1.lineage.identity + 1) entry.newSerial entry.changes
    (validatePersistedZoneDelta origin qclass state.1 updated entry.changes).mapError
      (.invalidZone .journal)
    .ok (updated, entry.persistedUnixSecs)

/-- The snapshot, the time it was persisted and the digest of the file that says so. -/
def restoreJournal (qclass : UInt16) (snapshot : ZoneSnapshot platform)
    (persistedUnixSecs : UInt64) (stored : List UInt8) (journal : Option (List UInt8)) :
    Except ZonePersistenceError ((ZoneSnapshot platform × UInt64) × List UInt8) :=
  match journal with
  | none => .ok ((snapshot, persistedUnixSecs), stored)
  | some bytes => do
    let (_, decoded, journalChecksum) ← cache.readJournalBytes origin bytes
    if decoded.baseChecksum ≠ stored then .ok ((snapshot, persistedUnixSecs), stored)
    else if snapshot.serial ≠ some decoded.baseSerial then
      .error (.malformed .journal "journal base serial mismatch")
    else do
      let state ← decoded.entries.foldlM (replayEntry origin qclass) (snapshot, persistedUnixSecs)
      .ok (state, journalChecksum)

/-- The zone at `now`: expired when its last confirmation is too long ago. -/
def restoredAt (now : UInt64) (snapshot : ZoneSnapshot platform) (persistedUnixSecs : UInt64) :
    RestoredZone platform :=
  -- the subtraction saturates
  let elapsed := now.toNat - persistedUnixSecs.toNat
  if snapshot.soaTimers.any fun timers => decide (timers.expire.toNat ≤ elapsed) then
    ⟨{ snapshot with state := .expired }, persistedUnixSecs⟩
  else ⟨snapshot, persistedUnixSecs⟩

def restore (identity : ℕ) (now : UInt64) (expectedOrigin : DomainName) (qclass : UInt16)
    (files : CacheFiles) : Except ZonePersistenceError (Option (RestoredZone platform)) :=
  match files.checkpoint with
  | none => .ok none
  | some bytes =>
    if cache.maxFileBytes < bytes.length then
      .error (.malformed .checkpoint "not a bounded regular file")
    else do
      let (checkpoint, stored) ← readCheckpoint cache.sha256 expectedOrigin bytes
      let snapshot ← (validatedPersistedZoneSnapshot identity checkpoint.origin qclass
        checkpoint.serial checkpoint.records).mapError (.invalidZone .checkpoint)
      let ((snapshot, persisted), activeChecksum) ←
        cache.restoreJournal checkpoint.origin qclass snapshot checkpoint.persistedUnixSecs
        stored files.journal
      let effective :=
        max ((cache.readFreshness snapshot.serial activeChecksum files.freshness).getD
          persisted) persisted
      .ok (some (restoredAt now snapshot effective))

end Restoring

end ZonePersistence

end BoronDns
