import BoronDns.CompressorSoundness
import BoronDns.Lib.Fields
import BoronDns.TransferRecord

/-!
The file of a full zone checkpoint. It holds the origin, the serial, the time it
was written and every record, and ends with a digest of all that. Reading a file
that was written so gives back what was written.
-/

namespace BoronDns

open Bytes Fields List Except

/-- The files of a zone in the cache directory. -/
inductive CacheFile
  | checkpoint
  | journal
  | freshness
  deriving DecidableEq

/-- `ZonePersistenceError`; the path is told by the file it is of. -/
inductive ZonePersistenceError
  | io (file : CacheFile)
  | malformed (file : CacheFile) (reason : String)
  | invalidZone (file : CacheFile) (source : AxfrError)
  deriving DecidableEq

section Names

variable {ε : Type}

/-- The errors of a name that is stored with its length before it. -/
structure NameErrors (ε : Type) where
  truncated : ε
  invalidLength : ε
  invalidName : ε
  trailing : ε

def writeName (name : DomainName) :
    List UInt8 := be16 (UInt16.ofNat name.toWire.length) ++ name.toWire

variable (errors : NameErrors ε)

def readName (bytes : List UInt8) : Except ε (DomainName × List UInt8) := do
  let (length, rest) ← u16 errors.truncated bytes
  if length = 0 ∨ 255 < length then .error errors.invalidLength
  else do
    let (wire, rest) ← take errors.truncated length.toNat rest
    match DomainName.parse wire 0 with
    | .error _ => .error errors.invalidName
    | .ok (name, consumed) =>
      if consumed ≠ wire.length then .error errors.trailing else .ok (name, rest)

theorem readName_writeName {name : DomainName} (hfits : name.wireLen ≤ 255)
    (rest : List UInt8) : readName errors (writeName name ++ rest) = .ok (name, rest) := by
  have hlen : (UInt16.ofNat name.toWire.length).toNat = name.wireLen := by
    rw [UInt16.toNat_ofNat', name.length_toWire]
    omega
  have hpositive : 0 < name.wireLen := Nat.succ_pos _
  have hrange : ¬ (UInt16.ofNat name.toWire.length = 0 ∨
      255 < UInt16.ofNat name.toWire.length) := by
    rintro (hzero | hlong)
    · rw [hzero] at hlen
      exact absurd hlen hpositive.ne
    · have hlong := UInt16.lt_iff_toNat_lt.mp hlong
      rw [hlen] at hlong
      exact absurd hlong (Nat.not_lt.mpr hfits)
  rw [readName, writeName, append_assoc, u16_be16, ok_bind_eq]
  dsimp only
  rw [if_neg hrange, take_append _ _ _ (by rw [hlen, name.length_toWire]), ok_bind_eq]
  rw [DomainName.parse_of_at hfits ⟨[], by simp⟩]
  dsimp only
  rw [if_neg (by rw [name.length_toWire]; simp)]

theorem length_writeName (name : DomainName) : (writeName name).length = name.wireLen + 2 := by
  rw [writeName, length_append, length_be16, name.length_toWire, Nat.add_comm]

end Names

section Records

def recordNameErrors : NameErrors ZonePersistenceError :=
  { truncated := .io .checkpoint
    invalidLength := .malformed .checkpoint "invalid owner length"
    invalidName := .malformed .checkpoint "invalid owner wire name"
    trailing := .malformed .checkpoint "trailing owner wire bytes" }

variable (record : ResourceRecord)

def writeRecord : List UInt8 :=
  writeName record.owner ++ be16 record.rrType ++ be16 record.cls ++ be32 record.ttl ++
    be16 (UInt16.ofNat record.rdata.length) ++ record.rdata

def readRecord (bytes : List UInt8) :
    Except ZonePersistenceError (ResourceRecord × List UInt8) := do
  let (owner, rest) ← readName recordNameErrors bytes
  let (rrType, rest) ← u16 (.io .checkpoint) rest
  let (cls, rest) ← u16 (.io .checkpoint) rest
  let (ttl, rest) ← u32 (.io .checkpoint) rest
  let (rdataLen, rest) ← u16 (.io .checkpoint) rest
  let (rdata, rest) ← take (.io .checkpoint) rdataLen.toNat rest
  .ok (⟨owner, rrType, cls, ttl, rdata⟩, rest)

def readRecords (count : ℕ) (bytes : List UInt8) :
    Except ZonePersistenceError (List ResourceRecord × List UInt8) :=
  many readRecord count bytes

/-- The owner and the data of the record fit in the fields of the file. -/
def RecordFits : Prop := record.owner.wireLen ≤ 255 ∧ record.rdata.length < 65536

theorem readRecord_writeRecord {record : ResourceRecord} (h : RecordFits record)
    (rest : List UInt8) : readRecord (writeRecord record ++ rest) = .ok (record, rest) := by
  obtain ⟨hown, hrdata⟩ := h
  simp only [readRecord, writeRecord, append_assoc, readName_writeName _ hown, ok_bind_eq,
    u16_be16, u32_be32, take_append _ _ _ (UInt16.toNat_ofNat_of_lt' hrdata).symm]

theorem readRecords_writeRecords {records : List ResourceRecord}
    (h : ∀ record ∈ records, RecordFits record) (rest : List UInt8) :
    readRecords records.length (records.flatMap writeRecord ++ rest) = .ok (records, rest) :=
  many_write (fun record hrec rest => readRecord_writeRecord (h record hrec) rest) rest

theorem minRecordBytes_le : 13 ≤ (writeRecord record).length := by
  have hpositive : 0 < record.owner.wireLen := Nat.succ_pos _
  simp only [writeRecord, length_append, length_writeName, length_be16, length_be32]
  omega

end Records

section Checkpoints

variable (sha256 : List UInt8 → List UInt8)

def magic : List UInt8 := [66, 79, 82, 79, 78, 90, 48, 49]

def maxRecords : ℕ := 4294967295

def minRecordBytes : ℕ := 13

def writeSerial : Option UInt32 → List UInt8
  | some serial => 1 :: be32 serial
  | none => [0]

def readSerial (bytes : List UInt8) : Except ZonePersistenceError (Option UInt32 × List UInt8) := do
  let (marker, rest) ← u8 (.io .checkpoint) bytes
  if marker = 0 then .ok (none, rest)
  else if marker = 1 then do
    let (serial, rest) ← u32 (.io .checkpoint) rest
    .ok (some serial, rest)
  else .error (.malformed .checkpoint "invalid serial presence marker")

/-- What a checkpoint file says. -/
structure Checkpoint where
  origin : DomainName
  serial : Option UInt32
  persistedUnixSecs : UInt64
  records : List ResourceRecord

variable (checkpoint : Checkpoint)

def Checkpoint.body : List UInt8 :=
  magic ++ writeName checkpoint.origin ++ writeSerial checkpoint.serial ++
    be64 checkpoint.persistedUnixSecs ++
    be64 (UInt64.ofNat checkpoint.records.length) ++ checkpoint.records.flatMap writeRecord

def Checkpoint.write : List UInt8 := checkpoint.body ++ sha256 checkpoint.body

def originNameErrors : NameErrors ZonePersistenceError :=
  { truncated := .io .checkpoint
    invalidLength := .malformed .checkpoint "invalid origin length"
    invalidName := .malformed .checkpoint "invalid origin wire name"
    trailing := .malformed .checkpoint "cache origin does not match configured zone" }

/-- The first part of `restore`: the checkpoint, and the digest at its end. -/
def readCheckpoint (expectedOrigin : DomainName) (bytes : List UInt8) :
    Except ZonePersistenceError (Checkpoint × List UInt8) := do
  let (found, rest) ← take (.io .checkpoint) magic.length bytes
  if found ≠ magic then .error (.malformed .checkpoint "invalid magic")
  else do
    let (origin, rest) ← readName originNameErrors rest
    if origin.canonicalKey ≠ expectedOrigin.canonicalKey then
      .error (.malformed .checkpoint "cache origin does not match configured zone")
    else do
      let (serial, rest) ← readSerial rest
      let (persistedUnixSecs, rest) ← u64 (.io .checkpoint) rest
      let (count, rest) ← u64 (.io .checkpoint) rest
      if maxRecords < count.toNat then
        .error (.malformed .checkpoint "record count exceeds format limit")
      else if bytes.length / minRecordBytes < count.toNat then
        .error (.malformed .checkpoint "record count cannot fit in cache file")
      else do
        let (records, rest) ← readRecords count.toNat rest
        let computed := sha256 (bytes.take (bytes.length - rest.length))
        let (stored, trailing) ← take (.io .checkpoint) 32 rest
        if computed ≠ stored then .error (.malformed .checkpoint "checksum mismatch")
        else if trailing ≠ [] then .error (.malformed .checkpoint "trailing bytes")
        else .ok (⟨origin, serial, persistedUnixSecs, records⟩, stored)

theorem readSerial_writeSerial (serial : Option UInt32) (rest : List UInt8) :
    readSerial (writeSerial serial ++ rest) = .ok (serial, rest) := by
  cases serial with
  | none => rfl
  | some serial => simp [writeSerial, readSerial]

/-- Every part of the checkpoint fits in its field. -/
structure Checkpoint.Fits (checkpoint : Checkpoint) : Prop where
  origin : checkpoint.origin.wireLen ≤ 255
  count : checkpoint.records.length ≤ maxRecords
  records : ∀ record ∈ checkpoint.records, RecordFits record

/-- Reading a checkpoint that was written gives it back. -/
theorem readCheckpoint_write (hdigest : ∀ bytes, (sha256 bytes).length = 32)
    {checkpoint : Checkpoint} (h : checkpoint.Fits) {expectedOrigin : DomainName}
    (horigin : checkpoint.origin.canonicalKey = expectedOrigin.canonicalKey) :
    readCheckpoint sha256 expectedOrigin (checkpoint.write sha256) = .ok
      (checkpoint, sha256 checkpoint.body) := by
  have hcount : (UInt64.ofNat checkpoint.records.length).toNat = checkpoint.records.length :=
    UInt64.toNat_ofNat_of_lt' (h.count.trans_lt (by simp [maxRecords, UInt64.size]))
  have hroom : ¬ (checkpoint.write sha256).length / minRecordBytes < checkpoint.records.length := by
    have hrecs := mul_length_le minRecordBytes_le checkpoint.records
    have hlen : (checkpoint.records.flatMap writeRecord).length ≤
        (checkpoint.write sha256).length := by
      simp only [Checkpoint.write, Checkpoint.body, length_append]
      omega
    unfold minRecordBytes
    omega
  have hread : checkpoint.write sha256 = magic ++ (writeName checkpoint.origin ++
      (writeSerial checkpoint.serial ++
      (be64 checkpoint.persistedUnixSecs ++ (be64 (UInt64.ofNat checkpoint.records.length) ++
        (checkpoint.records.flatMap writeRecord ++ sha256 checkpoint.body))))) := by
    simp [Checkpoint.write, Checkpoint.body]
  have hconsumed : (checkpoint.write sha256).take
      ((checkpoint.write sha256).length - (sha256 checkpoint.body).length) = checkpoint.body := by
    rw [Checkpoint.write, length_append, Nat.add_sub_cancel, take_left]
  have hstored :=
    take_append (ZonePersistenceError.io .checkpoint) (sha256 checkpoint.body) [] (hdigest _)
  rw [append_nil] at hstored
  unfold readCheckpoint
  rw [hread, take_append _ _ _ rfl, ok_bind_eq, ← hread]
  dsimp only
  rw [if_neg (by simp), readName_writeName _ h.origin, ok_bind_eq]
  rw [if_neg (by simp [horigin]), readSerial_writeSerial, ok_bind_eq]
  rw [u64_be64, ok_bind_eq]
  rw [u64_be64, ok_bind_eq]
  rw [hcount, if_neg (Nat.not_lt.mpr h.count), if_neg hroom, readRecords_writeRecords h.records]
  simp [hstored, hconsumed]

end Checkpoints

end BoronDns
