import BoronDns.CheckpointFormat

/-!
The journal of a zone: the changes of incremental transfers since a checkpoint. It
names the checkpoint by its digest and holds an entry for each transfer, chained by
their serials. Reading a journal that was written so gives back what was written.
-/

namespace BoronDns

open Bytes Fields List Except

structure PersistenceRrsetChange where
  owner : DomainName
  rrType : UInt16
  cls : UInt16
  replacement : Option Rrset
  deriving DecidableEq

variable (change : PersistenceRrsetChange)

def PersistenceRrsetChange.key : RrsetKey :=
  ⟨change.owner.canonicalKey, change.rrType, change.cls⟩

structure JournalEntry where
  oldSerial : UInt32
  newSerial : UInt32
  persistedUnixSecs : UInt64
  changes : List PersistenceRrsetChange
  deriving DecidableEq

structure DecodedJournal where
  baseChecksum : List UInt8
  baseSerial : UInt32
  entries : List JournalEntry
  deriving DecidableEq

def journalMagic : List UInt8 := [66, 79, 82, 79, 78, 74, 48, 49]

def maxJournalEntries : ℕ := 1024

def minJournalChangeBytes : ℕ := 8

def encodeRdata (rdata : Rdata) : Except String (List UInt8) :=
  if 65536 ≤ rdata.length then .error "journal RDATA is too long"
  else .ok (be16 (UInt16.ofNat rdata.length) ++ rdata)

def encodeReplacement : Option Rrset → Except String (List UInt8)
  | none => .ok [0]
  | some rrset =>
    if 4294967296 ≤ rrset.rdatas.length then .error "journal RRset has too many records"
    else if rrset.rdatas.length = 0 then .error "journal replacement RRset is empty"
    else do
      let rdatas ← rrset.rdatas.mapM encodeRdata
      .ok (1 :: (be32 rrset.ttl ++ be32 (UInt32.ofNat rrset.rdatas.length) ++ rdatas.flatten))

def encodeChange : Except String (List UInt8) :=
  if 65536 ≤ change.owner.toWire.length then .error "journal owner is too long"
  else do
    let replacement ← encodeReplacement change.replacement
    .ok (writeName change.owner ++ be16 change.rrType ++ be16 change.cls ++ replacement)

def encodeJournalEntry (oldSerial newSerial : UInt32) (now : UInt64)
    (changes : List PersistenceRrsetChange) : Except String (List UInt8) :=
  if 4294967296 ≤ changes.length then .error "too many changed RRsets"
  else do
    let encoded ← changes.mapM encodeChange
    .ok (be32 oldSerial ++ be32 newSerial ++ be64 now ++ be32 (UInt32.ofNat changes.length) ++
      encoded.flatten)

def truncatedJournal : String := "truncated journal"

def journalOriginErrors : NameErrors String :=
  { truncated := truncatedJournal
    invalidLength := "invalid journal origin length"
    invalidName := "invalid journal origin"
    trailing := "journal origin mismatch" }

def journalOwnerErrors : NameErrors String :=
  { truncated := truncatedJournal
    invalidLength := "invalid journal owner length"
    invalidName := "invalid journal owner"
    trailing := "trailing journal owner bytes" }

def decodeRdata (bytes : List UInt8) : Except String (Rdata × List UInt8) := do
  let (length, rest) ← u16 truncatedJournal bytes
  take truncatedJournal length.toNat rest

def decodeRdatas (count : ℕ) (bytes : List UInt8) : Except String (List Rdata × List UInt8) :=
  many decodeRdata count bytes

def decodeReplacement (total : ℕ) (owner : DomainName) (rrType cls : UInt16) (bytes : List UInt8) :
    Except String (Option Rrset × List UInt8) := do
  let (marker, rest) ← u8 truncatedJournal bytes
  if marker = 0 then .ok (none, rest)
  else if marker = 1 then do
    let (ttl, rest) ← u32 truncatedJournal rest
    let (count, rest) ← u32 truncatedJournal rest
    if count = 0 then .error "journal replacement RRset is empty"
    else if total / 2 < count.toNat then .error "journal RDATA count cannot fit"
    else do
      let (rdatas, rest) ← decodeRdatas count.toNat rest
      .ok (some ⟨owner, rrType, cls, ttl, rdatas⟩, rest)
  else .error "invalid journal replacement marker"

def decodeChanges (total : ℕ) :
    ℕ → List RrsetKey → List UInt8 → Except String (List PersistenceRrsetChange × List UInt8)
  | 0, _, bytes => .ok ([], bytes)
  | count + 1, changedRrsets, bytes => do
    let (owner, rest) ← readName journalOwnerErrors bytes
    let (rrType, rest) ← u16 truncatedJournal rest
    let (cls, rest) ← u16 truncatedJournal rest
    if ⟨owner.canonicalKey, rrType, cls⟩ ∈
      changedRrsets then .error "duplicate journal RRset change"
    else do
      let (replacement, rest) ← decodeReplacement total owner rrType cls rest
      let (changes, rest) ← decodeChanges total count (⟨owner.canonicalKey, rrType, cls⟩ ::
        changedRrsets) rest
      .ok (⟨owner, rrType, cls, replacement⟩ :: changes, rest)

def decodeEntries (total : ℕ) :
    ℕ → UInt32 → List UInt8 → Except String (List JournalEntry × List UInt8)
  | 0, _, bytes => .ok ([], bytes)
  | count + 1, expectedSerial, bytes => do
    let (oldSerial, rest) ← u32 truncatedJournal bytes
    let (newSerial, rest) ← u32 truncatedJournal rest
    if oldSerial ≠ expectedSerial then .error "journal serial chain mismatch"
    else do
      let (persistedUnixSecs, rest) ← u64 truncatedJournal rest
      let (changeCount, rest) ← u32 truncatedJournal rest
      if rest.length / minJournalChangeBytes <
        changeCount.toNat then .error "journal change count cannot fit"
      else do
        let (changes, rest) ← decodeChanges total changeCount.toNat [] rest
        let (entries, rest) ← decodeEntries total count newSerial rest
        .ok (⟨oldSerial, newSerial, persistedUnixSecs, changes⟩ :: entries, rest)

def decodeJournal (bytes : List UInt8) (expectedOrigin : DomainName) :
    Except String DecodedJournal := do
  let (found, rest) ← take truncatedJournal journalMagic.length bytes
  if found ≠ journalMagic then .error "invalid journal magic"
  else do
    let (origin, rest) ← readName journalOriginErrors rest
    if origin.canonicalKey ≠ expectedOrigin.canonicalKey then .error "journal origin mismatch"
    else do
      let (baseChecksum, rest) ← take truncatedJournal 32 rest
      let (baseSerial, rest) ← u32 truncatedJournal rest
      let (entryCount, rest) ← u32 truncatedJournal rest
      if maxJournalEntries < entryCount.toNat then .error "journal entry count exceeds limit"
      else do
        let (entries, rest) ← decodeEntries bytes.length entryCount.toNat baseSerial rest
        if rest ≠ [] then .error "trailing journal bytes"
        else .ok ⟨baseChecksum, baseSerial, entries⟩

def writeRdata (rdata : Rdata) : List UInt8 := be16 (UInt16.ofNat rdata.length) ++ rdata

def writeReplacement : Option Rrset → List UInt8
  | none => [0]
  | some rrset =>
    1 :: (be32 rrset.ttl ++ be32 (UInt32.ofNat rrset.rdatas.length) ++
      rrset.rdatas.flatMap writeRdata)

def writeChange : List UInt8 :=
  writeName change.owner ++ be16 change.rrType ++ be16 change.cls ++
    writeReplacement change.replacement

def writeEntry (entry : JournalEntry) : List UInt8 :=
  be32 entry.oldSerial ++ be32 entry.newSerial ++ be64 entry.persistedUnixSecs ++
    be32 (UInt32.ofNat entry.changes.length) ++ entry.changes.flatMap writeChange

/-- What stands before the number of entries. -/
def journalHead (origin : DomainName) (baseChecksum : List UInt8) (baseSerial : UInt32) :
    List UInt8 :=
  journalMagic ++ writeName origin ++ baseChecksum ++ be32 baseSerial

def DecodedJournal.write (journal : DecodedJournal) (origin : DomainName) : List UInt8 :=
  journalHead origin journal.baseChecksum journal.baseSerial ++
    be32 (UInt32.ofNat journal.entries.length) ++ journal.entries.flatMap writeEntry

/-- A replacement is of the RRset that the change names, and fits in its fields. -/
structure ReplacementFits (rrset : Rrset) : Prop where
  owner : rrset.owner = change.owner
  rrType : rrset.rrType = change.rrType
  cls : rrset.cls = change.cls
  nonempty : rrset.rdatas ≠ []
  count : rrset.rdatas.length < 4294967296
  rdatas : ∀ rdata ∈ rrset.rdatas, rdata.length < 65536

structure ChangeFits : Prop where
  owner : change.owner.wireLen ≤ 255
  replacement : ∀ rrset, change.replacement = some rrset → ReplacementFits change rrset

structure EntryFits (entry : JournalEntry) : Prop where
  count : entry.changes.length < 4294967296
  distinct : (entry.changes.map PersistenceRrsetChange.key).Nodup
  changes : ∀ change ∈ entry.changes, ChangeFits change

/-- Each entry starts with the serial that the one before it ends with. -/
def SerialChain : UInt32 → List JournalEntry → Prop
  | _, [] => True
  | serial, entry :: entries => entry.oldSerial = serial ∧ SerialChain entry.newSerial entries

structure DecodedJournal.Fits (journal : DecodedJournal) : Prop where
  baseChecksum : journal.baseChecksum.length = 32
  count : journal.entries.length ≤ maxJournalEntries
  chain : SerialChain journal.baseSerial journal.entries
  entries : ∀ entry ∈ journal.entries, EntryFits entry

section RoundTrip

variable {total : ℕ}

theorem decodeRdatas_write {rdatas : List Rdata} (h : ∀ rdata ∈ rdatas, rdata.length < 65536)
    (rest : List UInt8) :
    decodeRdatas rdatas.length (rdatas.flatMap writeRdata ++ rest) = .ok (rdatas, rest) := by
  refine many_write (fun rdata hrdata rest => ?_) rest
  rw [writeRdata, append_assoc, decodeRdata, u16_be16, ok_bind_eq]
  exact take_append _ _ _ (UInt16.toNat_ofNat_of_lt' (h rdata hrdata)).symm

theorem decodeReplacement_write {change : PersistenceRrsetChange} (h : ChangeFits change)
    (rest : List UInt8) (htotal : (writeReplacement change.replacement).length ≤ total) :
    decodeReplacement total change.owner change.rrType change.cls
      (writeReplacement change.replacement ++ rest) = .ok (change.replacement, rest) := by
  cases hreplacement : change.replacement with
  | none => rfl
  | some rrset =>
    have hfits := h.replacement rrset hreplacement
    have hcount := UInt32.toNat_ofNat_of_lt' hfits.count
    have hnonempty : UInt32.ofNat rrset.rdatas.length ≠ 0 := by
      intro hzero
      rw [hzero] at hcount
      exact hfits.nonempty (length_eq_zero_iff.mp (hcount.symm.trans UInt32.toNat_zero))
    have hroom : ¬ total / 2 < rrset.rdatas.length := by
      have hrdatas :=
        mul_length_le (fun rdata => show 2 ≤ (writeRdata rdata).length
          by simp [writeRdata]) rrset.rdatas
      rw [hreplacement] at htotal
      simp only [writeReplacement, length_cons, length_append] at htotal
      omega
    have hrrset : (⟨change.owner, change.rrType, change.cls, rrset.ttl, rrset.rdatas⟩ : Rrset) =
        rrset := by
      rw [← hfits.owner, ← hfits.rrType, ← hfits.cls]
    have hwritten : writeReplacement (some rrset) ++ rest = 1 :: (be32 rrset.ttl ++
        (be32 (UInt32.ofNat rrset.rdatas.length) ++
        (rrset.rdatas.flatMap writeRdata ++ rest))) := by
      simp [writeReplacement]
    rw [hwritten, decodeReplacement, u8_cons, ok_bind_eq]
    dsimp only
    rw [if_neg (by decide), if_pos rfl, u32_be32, ok_bind_eq]
    rw [u32_be32, ok_bind_eq]
    rw [if_neg hnonempty, hcount, if_neg hroom, decodeRdatas_write hfits.rdatas, ok_bind_eq]
    rw [hrrset]

theorem decodeChanges_write {changes : List PersistenceRrsetChange}
    (h : ∀ change ∈ changes, ChangeFits change) {changedRrsets : List RrsetKey}
    (hdist : (changes.map PersistenceRrsetChange.key).Nodup)
    (hnew : ∀ change ∈ changes, change.key ∉ changedRrsets) (rest : List UInt8)
    (htotal : (changes.flatMap writeChange).length ≤ total) :
    decodeChanges total changes.length changedRrsets (changes.flatMap writeChange ++ rest) = .ok
      (changes, rest) := by
  induction changes generalizing changedRrsets with
  | nil => rfl
  | cons change changes ih =>
    have hfirst := h change (mem_cons_self ..)
    rw [map_cons, nodup_cons] at hdist
    rw [flatMap_cons, length_append] at htotal
    have hlen : (writeReplacement change.replacement).length ≤ total := by
      simp only [writeChange, length_append] at htotal
      omega
    have hlater : ∀ other ∈ changes, other.key ∉ change.key :: changedRrsets := by
      intro other hother hmem
      rcases mem_cons.mp hmem with heq | hmem
      · exact hdist.1 (heq ▸ mem_map_of_mem hother)
      · exact hnew other (mem_cons_of_mem _ hother) hmem
    have hrest :=
      ih (fun other hother => h other (mem_cons_of_mem _ hother)) hdist.2 hlater (by omega)
    have hfresh : (⟨change.owner.canonicalKey, change.rrType, change.cls⟩ : RrsetKey) ∉
        changedRrsets :=
      hnew change (mem_cons_self ..)
    simp only [flatMap_cons, writeChange, append_assoc, length_cons, decodeChanges,
      readName_writeName _ hfirst.owner, ok_bind_eq, u16_be16, if_neg hfresh,
      decodeReplacement_write hfirst _ hlen]
    rw [show (⟨change.owner.canonicalKey, change.rrType, change.cls⟩ : RrsetKey) =
      change.key from rfl, hrest]
    rfl

theorem minJournalChangeBytes_le : 8 ≤ (writeChange change).length := by
  have hpositive : 0 < change.owner.wireLen := Nat.succ_pos _
  have hreplacement : 1 ≤ (writeReplacement change.replacement).length := by
    cases change.replacement <;> simp [writeReplacement]
  simp only [length_append, writeChange, length_writeName, length_be16]
  omega

theorem decodeEntries_write {entries : List JournalEntry} (h : ∀ entry ∈ entries, EntryFits entry)
    {serial : UInt32} (hchain : SerialChain serial entries) (rest : List UInt8)
    (htotal : (entries.flatMap writeEntry).length ≤ total) :
    decodeEntries total entries.length serial (entries.flatMap writeEntry ++ rest) = .ok
      (entries, rest) := by
  induction entries generalizing serial with
  | nil => rfl
  | cons entry entries ih =>
    have hfirst := h entry (mem_cons_self ..)
    have hcount := UInt32.toNat_ofNat_of_lt' hfirst.count
    rw [flatMap_cons, length_append] at htotal
    have hlen : (entry.changes.flatMap writeChange).length ≤ total := by
      simp only [writeEntry, length_append] at htotal
      omega
    have hrest := ih (fun other hother => h other (mem_cons_of_mem _ hother)) hchain.2 (by omega)
    have hroom : ¬ (entry.changes.flatMap writeChange ++
        (entries.flatMap writeEntry ++ rest)).length /
        minJournalChangeBytes < entry.changes.length := by
      have hchanges := mul_length_le minJournalChangeBytes_le entry.changes
      rw [length_append]
      unfold minJournalChangeBytes
      omega
    have hwritten : (entry :: entries).flatMap writeEntry ++ rest = be32 entry.oldSerial ++
        (be32 entry.newSerial ++
        (be64 entry.persistedUnixSecs ++ (be32 (UInt32.ofNat entry.changes.length) ++
          (entry.changes.flatMap writeChange ++ (entries.flatMap writeEntry ++ rest))))) := by
      simp [writeEntry]
    rw [hwritten, length_cons, decodeEntries, u32_be32, ok_bind_eq]
    dsimp only
    rw [u32_be32, ok_bind_eq]
    rw [if_neg (not_not.mpr hchain.1), u64_be64, ok_bind_eq]
    rw [u32_be32, ok_bind_eq]
    rw [hcount, if_neg hroom,
      decodeChanges_write hfirst.changes hfirst.distinct (fun _ _ => not_mem_nil) _ hlen,
      ok_bind_eq]
    rw [hrest]
    rfl

/-- Reading a journal that was written gives it back. -/
theorem decodeJournal_write {journal : DecodedJournal} (h : journal.Fits)
    {origin expectedOrigin : DomainName} (hfits : origin.wireLen ≤ 255)
    (horigin : origin.canonicalKey = expectedOrigin.canonicalKey) :
    decodeJournal (journal.write origin) expectedOrigin = .ok journal := by
  have hcount : (UInt32.ofNat journal.entries.length).toNat = journal.entries.length :=
    UInt32.toNat_ofNat_of_lt' (h.count.trans_lt (by simp [maxJournalEntries, UInt32.size]))
  have hread : journal.write origin = journalMagic ++ (writeName origin ++ (journal.baseChecksum ++
      (be32 journal.baseSerial ++ (be32 (UInt32.ofNat journal.entries.length) ++
        (journal.entries.flatMap writeEntry ++ []))))) := by
    simp [DecodedJournal.write, journalHead]
  have hlen : (journal.entries.flatMap writeEntry).length ≤ (journal.write origin).length := by
    simp only [DecodedJournal.write, length_append]
    omega
  unfold decodeJournal
  rw [hread, take_append _ _ _ rfl, ok_bind_eq, ← hread]
  dsimp only
  rw [if_neg (by simp), readName_writeName _ hfits, ok_bind_eq]
  rw [if_neg (by simp [horigin]), take_append _ _ _ h.baseChecksum, ok_bind_eq]
  rw [u32_be32, ok_bind_eq]
  rw [u32_be32, ok_bind_eq]
  rw [hcount, if_neg (Nat.not_lt.mpr h.count), decodeEntries_write h.entries h.chain [] hlen,
    ok_bind_eq]
  rfl

end RoundTrip

section Encoded

theorem mapM_eq_ok {α : Type} {f : α → Except String (List UInt8)} {g : α → List UInt8}
    {p : α → Prop} (hstep : ∀ item bytes, f item = .ok bytes → bytes = g item ∧ p item)
    {items : List α} {parts : List (List UInt8)} (h : items.mapM f = .ok parts) :
    parts.flatten = items.flatMap g ∧ ∀ item ∈ items, p item := by
  induction items generalizing parts with
  | nil =>
    obtain rfl := ok.inj h
    exact ⟨rfl, by simp⟩
  | cons item items ih =>
    rw [mapM_cons] at h
    obtain ⟨bytes, hbytes, h⟩ := bind_eq_ok_iff.mp h
    obtain ⟨others, hothers, h⟩ := bind_eq_ok_iff.mp h
    obtain rfl := ok.inj h
    obtain ⟨rfl, hitem⟩ := hstep item bytes hbytes
    obtain ⟨hflatten, hrest⟩ := ih hothers
    exact ⟨by rw [flatten_cons, hflatten, flatMap_cons],
      fun other hother => (mem_cons.mp hother).elim (fun heq => heq ▸ hitem) (hrest other)⟩

variable {bytes : List UInt8}

theorem encodeRdata_eq_ok {rdata : Rdata} (h : encodeRdata rdata = .ok bytes) :
    bytes = writeRdata rdata ∧ rdata.length < 65536 := by
  unfold encodeRdata at h
  split at h
  · cases h
  · exact ⟨(ok.inj h).symm, by omega⟩

/-- What an encoded replacement is known to be. -/
def ReplacementEncodes (replacement : Option Rrset) : Prop :=
  ∀ rrset, replacement = some rrset →
    rrset.rdatas ≠ [] ∧ rrset.rdatas.length < 4294967296 ∧ ∀ rdata ∈ rrset.rdatas,
    rdata.length < 65536

theorem encodeReplacement_eq_ok {replacement : Option Rrset}
    (h : encodeReplacement replacement = .ok bytes) :
    bytes = writeReplacement replacement ∧ ReplacementEncodes replacement := by
  cases replacement with
  | none => exact ⟨(ok.inj h).symm, by simp [ReplacementEncodes]⟩
  | some rrset =>
    unfold encodeReplacement at h
    dsimp only at h
    split at h
    · cases h
    split at h
    · cases h
    rename_i hcount hnonempty
    obtain ⟨parts, hparts, h⟩ := bind_eq_ok_iff.mp h
    obtain ⟨hflatten, hrdatas⟩ := mapM_eq_ok (fun rdata bytes => encodeRdata_eq_ok) hparts
    refine ⟨?_, ?_⟩
    · rw [← ok.inj h, hflatten, writeReplacement]
    · intro other hother
      obtain rfl := Option.some.inj hother
      exact ⟨fun hempty => hnonempty (by rw [hempty]; rfl), by omega, hrdatas⟩

theorem encodeChange_eq_ok {change : PersistenceRrsetChange} (h : encodeChange change = .ok bytes) :
    bytes = writeChange change ∧ ReplacementEncodes change.replacement := by
  unfold encodeChange at h
  split at h
  · cases h
  · obtain ⟨part, hpart, h⟩ := bind_eq_ok_iff.mp h
    obtain ⟨rfl, hencodes⟩ := encodeReplacement_eq_ok hpart
    exact ⟨(ok.inj h).symm, hencodes⟩

end Encoded

end BoronDns
