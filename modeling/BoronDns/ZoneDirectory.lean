import BoronDns.Lib.ShardedMap
import BoronDns.Records
import Mathlib.Data.List.Sort

/-!
The directory of served zones. Every publication stores a whole directory:
entries by canonical origin key, the same entries by reverse label key, a
conservative record of the key lengths in use, a short list that replaces the
index while at most four zones are served, and two counters. A query selects
the visible entry with the longest origin at or above its name.
-/

namespace BoronDns

open ShardedMap

/-- One published zone. An entry is always held behind a shared pointer that
nothing else points to, so `allocation` names both the pointer and the entry. -/
structure ZoneStoreEntry (Snapshot Image Dirty : Type) where
  allocation : ℕ
  origin : DomainName
  originLabelCount : ℕ
  originKey : NameKey
  state : ZoneState
  serial : Option UInt32
  soaTimers : Option SoaTimers
  snapshot : Snapshot
  image : Option Image
  imageSnapshot : Option Snapshot
  overlayDirty : Option Dirty
  hidden : Bool
  incarnation : UInt64
  originLabelCount_eq : originLabelCount = origin.labelCount
  originKey_eq : originKey = origin.canonicalKey

/-- FNV-1a, as the source computes it on 64-bit words. -/
def zoneDirectoryHash (bytes : List UInt8) : UInt64 :=
  bytes.foldl (fun hash byte => (hash ^^^ byte.toUInt64) * 0x100000001b3) 0xcbf29ce484222325

abbrev mapCount : ℕ := 256

def mainDirectoryShard (bytes : List UInt8) : Fin mapCount :=
  Fin.ofNat mapCount (zoneDirectoryHash bytes &&& 255).toNat

def smallZoneDirectoryLimit : ℕ := 4

abbrev DirectoryShards (V : Type) := Shards mainDirectoryShard V

structure ZoneDirectory (E : Type) where
  byOrigin : DirectoryShards E
  suffixIndex : DirectoryShards E
  suffixKeyLengths : Fin 4 → UInt64
  small : List E
  len : ℕ
  activeCount : ℕ

variable (lengths : Fin 4 → UInt64)

/-- Record that a key of this length is in use. Lengths past the bitmap are not
recorded and always take the ordinary lookup. -/
def markKeyLength (len : ℕ) : Fin 4 → UInt64 :=
  if h : len / 64 < 4 then
    Function.update lengths ⟨len / 64, h⟩
      (lengths ⟨len / 64, h⟩ ||| (1 <<< UInt64.ofNat (len % 64)))
  else
    lengths

def keyLengthExcluded (len : ℕ) : Bool :=
  if h : len / 64 < 4 then
    lengths ⟨len / 64, h⟩ &&& (1 <<< UInt64.ofNat (len % 64)) == 0
  else
    false

namespace ZoneStoreEntry

variable {Snapshot Image Dirty : Type}

/-- The entries that `active_count` counts. -/
def servesQueries (entry : ZoneStoreEntry Snapshot Image Dirty) : Bool :=
  entry.state == .active && !entry.hidden

/-- The order of the short list: most labels first. The source sorts with an
unstable sort, which may order entries with equally many labels either way. -/
def mostSpecificFirst (a b : ZoneStoreEntry Snapshot Image Dirty) : Prop :=
  b.originLabelCount ≤ a.originLabelCount

instance : DecidableRel (@mostSpecificFirst Snapshot Image Dirty) :=
  fun a b => inferInstanceAs (Decidable (b.originLabelCount ≤ a.originLabelCount))

end ZoneStoreEntry

namespace ZoneDirectory

variable {Snapshot Image Dirty : Type}

def empty : ZoneDirectory (ZoneStoreEntry Snapshot Image Dirty) where
  byOrigin := Shards.empty _ _
  suffixIndex := Shards.empty _ _
  suffixKeyLengths := fun _ => 0
  small := []
  len := 0
  activeCount := 0

def values (d : ZoneDirectory (ZoneStoreEntry Snapshot Image Dirty)) :
    List (ZoneStoreEntry Snapshot Image Dirty) :=
  d.byOrigin.values

def get (d : ZoneDirectory (ZoneStoreEntry Snapshot Image Dirty)) (key : NameKey) :
    Option (ZoneStoreEntry Snapshot Image Dirty) :=
  d.byOrigin.get key

def insert (d : ZoneDirectory (ZoneStoreEntry Snapshot Image Dirty)) (key : NameKey)
    (entry : ZoneStoreEntry Snapshot Image Dirty) :
    ZoneDirectory (ZoneStoreEntry Snapshot Image Dirty) :=
  let suffixKey := canonicalReverseLabelKey entry.origin
  let previous := d.byOrigin.get key
  let len := if previous.isSome then d.len else d.len + 1
  let activeCount := d.activeCount - (previous.elim 0 fun p => p.servesQueries.toNat)
  { byOrigin := d.byOrigin.insert key entry
    suffixIndex := d.suffixIndex.insert suffixKey entry
    suffixKeyLengths := markKeyLength d.suffixKeyLengths suffixKey.length
    small :=
      if len ≤ smallZoneDirectoryLimit then
        (d.small.filter (fun cached => cached.originKey ≠ entry.originKey) ++ [entry]).insertionSort
          ZoneStoreEntry.mostSpecificFirst
      else
        []
    len := len
    activeCount := activeCount + entry.servesQueries.toNat }

/-- The directory after `remove`, and the entry it returns. -/
def remove (d : ZoneDirectory (ZoneStoreEntry Snapshot Image Dirty)) (key : NameKey) :
    ZoneDirectory (ZoneStoreEntry Snapshot Image Dirty) × Option
      (ZoneStoreEntry Snapshot Image Dirty) :=
  match d.byOrigin.get key with
  | none => (d, none)
  | some entry =>
    let byOrigin := d.byOrigin.remove key
    let len := d.len - 1
    ({ byOrigin := byOrigin
       suffixIndex := d.suffixIndex.remove (canonicalReverseLabelKey entry.origin)
       suffixKeyLengths := if len = 0 then fun _ => 0 else d.suffixKeyLengths
       small :=
         if len ≤ smallZoneDirectoryLimit then
           byOrigin.values.insertionSort ZoneStoreEntry.mostSpecificFirst
         else
           d.small
       len := len
       activeCount := d.activeCount - entry.servesQueries.toNat }, some entry)

variable (d : ZoneDirectory (ZoneStoreEntry Snapshot Image Dirty)) (qname : DomainName)
  (qnameAsciiLowercase : Bool)

def suffixGet (key : List UInt8) : Option (ZoneStoreEntry Snapshot Image Dirty) :=
  if keyLengthExcluded d.suffixKeyLengths key.length then none else d.suffixIndex.get key

/-- An entry found in the index counts only while it is visible. -/
def visibleSuffixGet (key : List UInt8) : Option (ZoneStoreEntry Snapshot Image Dirty) :=
  (d.suffixGet key).filter fun entry => !entry.hidden

/-- The scan of the short list. -/
def findInSmall : Option (ZoneStoreEntry Snapshot Image Dirty) :=
  d.small.find? fun entry => !entry.hidden && qname.isEqualOrSubdomainOf entry.origin

/-- The search of the suffix index, longest candidate first, the root last. -/
def findInSuffixIndex : Option (ZoneStoreEntry Snapshot Image Dirty) :=
  let (qnameKey, prefixLengths) :=
    canonicalReverseLabelKeyWithPrefixes qname qnameAsciiLowercase
  (prefixLengths.reverse.findSome? fun len => d.visibleSuffixGet (qnameKey.take len)).or
    (d.visibleSuffixGet [])

def findBestMatch : Option (ZoneStoreEntry Snapshot Image Dirty) :=
  if d.small.isEmpty then d.findInSuffixIndex qname qnameAsciiLowercase else d.findInSmall qname

def findParentOfExactMatch : Option (ZoneStoreEntry Snapshot Image Dirty) :=
  let (qnameKey, prefixLengths) :=
    canonicalReverseLabelKeyWithPrefixes qname qnameAsciiLowercase
  match d.suffixGet qnameKey with
  | none => none
  | some exact =>
    if exact.hidden || prefixLengths.isEmpty then
      none
    else
      (prefixLengths.dropLast.reverse.findSome? fun len =>
        d.visibleSuffixGet (qnameKey.take len)).or (d.visibleSuffixGet [])

end ZoneDirectory

end BoronDns
