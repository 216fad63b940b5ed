import BoronDns.ImageSearch

/-!
The denial-of-existence data of a compiled zone. NSEC and NSEC3 records become
ranges, sorted and grouped by class (and hash parameters); a group is used only
if its ranges form a closed chain. The zone's NSEC3PARAM records select one NSEC3
chain, and a zone that has denial records but no usable chain is broken. SHA-1
is a parameter.
-/

namespace BoronDns

open ZoneImageBuilder

structure Nsec3Params where
  hashAlgorithm : UInt8
  iterations : UInt16
  salt : List UInt8
  deriving DecidableEq

variable (image : ZoneImage) (rdata : Rdata)

/-- The hash parameters in front of an NSEC3 record, which goes on after them. -/
def nsec3ParamsFromRdata : Option Nsec3Params :=
  match rdata with
  | hashAlgorithm :: _ :: high :: low :: saltLen :: rest =>
    if rest.length < saltLen.toNat + 1 then
      none
    else
      some ⟨hashAlgorithm, Bytes.fromBe16 high low, rest.take saltLen.toNat⟩
  | _ => none

/-- The hash parameters of an NSEC3PARAM record, which has nothing after them. -/
def nsec3paramParamsFromRdata : Option Nsec3Params :=
  match rdata with
  | hashAlgorithm :: flags :: high :: low :: saltLen :: rest =>
    if flags = 0 ∧ rest.length = saltLen.toNat then
      some ⟨hashAlgorithm, Bytes.fromBe16 high low, rest⟩
    else
      none
  | _ => none

def fixedSha1HashBytes (bytes : List UInt8) : Option (List UInt8) :=
  if bytes.length = 20 then some bytes else none

/-- The rest of an NSEC3 record behind its salt: the next hash and the bitmap. -/
def nsec3NextHashAndBitmap : Option (List UInt8 × List UInt8) :=
  match nsec3ParamsFromRdata rdata with
  | none => none
  | some params =>
    match rdata.drop (5 + params.salt.length) with
    | [] => none
    | hashLen :: rest =>
      if rest.length < hashLen.toNat then
        none
      else
        some (rest.take hashLen.toNat, rest.drop hashLen.toNat)

def nsec3NextHashBytes : Option (List UInt8) :=
  (nsec3NextHashAndBitmap rdata).bind fun parts => fixedSha1HashBytes parts.1

/-- The windows of a type bitmap, read until the one of the type. -/
def typeBitmapLoop (rrType : UInt16) (bitmap : List UInt8) (previousWindow : Option UInt8) :
    Option Bool :=
  match bitmap with
  | [] => some false
  | [_] => none
  | window :: len :: rest =>
    let bitmapLen := len.toNat
    if bitmapLen = 0 ∨ 32 < bitmapLen ∨ rest.length < bitmapLen ∨
        (previousWindow.any fun previous => window ≤ previous) = true then
      none
    else if window = (rrType >>> 8).toUInt8 then
      some (match rest[((rrType &&& 0xff) >>> 3).toNat]? with
        | none => false
        | some octet => ((rrType &&& 0xff) >>> 3).toNat < bitmapLen &&
            octet &&& (1 <<< (7 - (rrType &&& 7)).toUInt8) != 0)
    else
      typeBitmapLoop rrType (rest.drop bitmapLen) (some window)
  termination_by bitmap.length
  decreasing_by
    simp only [List.length_drop, List.length_cons]
    omega

def nsec3TypeBitmapContains (rrType : UInt16) : Option Bool :=
  match nsec3NextHashAndBitmap rdata with
  | none => none
  | some parts => typeBitmapLoop rrType parts.2 none

def base32hexValue (byte : UInt8) : Option ℕ :=
  if 48 ≤ byte ∧ byte ≤ 57 then
    some (byte.toNat - 48)
  else if 97 ≤ byte ∧ byte ≤ 118 then
    some (byte.toNat - 97 + 10)
  else
    none

/-- Fewer than eight bits are pending before each character, so at most one
octet is completed by it. -/
def base32hexDecodeLoop : List UInt8 → List UInt8 → ℕ → ℕ → Option (List UInt8)
  | [], out, buffer, bits => if 0 < bits ∧ buffer ≠ 0 then none else fixedSha1HashBytes out
  | byte :: rest, out, buffer, bits =>
    match base32hexValue (toAsciiLowercase byte) with
    | none => none
    | some value =>
      if bits + 5 < 8 then
        base32hexDecodeLoop rest out (buffer * 32 + value) (bits + 5)
      else if out.length = 20 then
        none
      else
        base32hexDecodeLoop rest
          (out ++ [UInt8.ofNat ((buffer * 32 + value) / 2 ^ (bits - 3))])
          ((buffer * 32 + value) % 2 ^ (bits - 3)) (bits - 3)

def base32hexSha1NoPaddingDecodeLower (encoded : List UInt8) : Option (List UInt8) :=
  base32hexDecodeLoop encoded [] 0 0

/-- The hash in the first label of an owner right below the origin. -/
def nsec3OwnerHashBytes (owner origin : DomainName) : Option (List UInt8) :=
  match owner.labels with
  | [] => none
  | hashLabel :: rest =>
    if rest.map lowerLabel = origin.lowerLabels then
      base32hexSha1NoPaddingDecodeLower hashLabel
    else
      none

/-- A name as the denial searches take it: an optional label in front of labels,
and whether the letters are known to be lowercase. -/
structure NameLabelView where
  front : Option Label
  labels : List Label
  asciiLowercase : Bool

namespace NameLabelView

def ofName (name : DomainName) (asciiLowercase : Bool) : NameLabelView :=
  ⟨none, name.labels, asciiLowercase⟩

def wildcardChild (labels : List Label) (asciiLowercase : Bool) : NameLabelView :=
  ⟨some [42], labels, asciiLowercase⟩

/-- The labels in the letters they are compared and hashed in. -/
def canonicalLabels (view : NameLabelView) : List Label :=
  (view.front.toList ++ view.labels).map fun label => if view.asciiLowercase then label
  else lowerLabel label

end NameLabelView

/-- The canonical order of names compares labels from the right. -/
def canonicalOrderKey (labels : List Label) : List (List ℕ) := (labels.map octets).reverse

section Hash

variable (sha1 : List UInt8 → List UInt8)

def nsec3HashLabelView (view : NameLabelView) (params : Nsec3Params) : Option (List UInt8) :=
  if params.hashAlgorithm ≠ 1 then
    none
  else
    some ((fun hash => sha1 (hash ++ params.salt))^[params.iterations.toNat]
      (sha1 (labelsWire view.canonicalLabels ++ [0] ++ params.salt)))

end Hash

structure ImageNsecRange where
  rrsetId : ℕ
  cls : UInt16
  ownerKey : List (List ℕ)
  nextKey : List (List ℕ)

namespace ImageNsecRange

variable (range : ImageNsecRange)

def ownerBeforeNext : Bool := range.ownerKey < range.nextKey

def covers (name : List (List ℕ)) : Bool :=
  if range.ownerBeforeNext then
    range.ownerKey < name && name < range.nextKey
  else
    range.ownerKey < name || name < range.nextKey

end ImageNsecRange

structure ImageNsec3Range where
  rrsetId : ℕ
  cls : UInt16
  paramSet : ℕ
  ownerHash : List UInt8
  nextHash : List UInt8

def nsec3RangeCoversHash (ownerHash nextHash hash : List UInt8) : Bool :=
  if octets ownerHash < octets nextHash then
    octets ownerHash < octets hash && octets hash < octets nextHash
  else if octets nextHash < octets ownerHash then
    octets ownerHash < octets hash || octets hash < octets nextHash
  else
    hash != ownerHash

/-- A closed chain: the owners ascend, and each record names the owner of the
one after it, the last one the first. -/
def chainIsClosed {Key : Type} [DecidableEq Key] (less : Key → Key → Bool)
    (chain : List (Key × Key)) : Bool :=
  !chain.isEmpty &&
    (List.range chain.length).all fun index =>
      match chain[index]?, chain[(index + 1) % chain.length]? with
      | some current, some next =>
        (chain.length ≤ index + 1 || less current.1 next.1) && current.2 == next.1
      | _, _ => false

def nsecRangeGroupIsIndexable (ranges : List ImageNsecRange) : Bool :=
  chainIsClosed (fun left right => left < right)
    (ranges.map fun range => (range.ownerKey, range.nextKey))

def nsec3RangeGroupIsIndexable (ranges : List ImageNsec3Range) : Bool :=
  chainIsClosed (fun left right => octets left < octets right)
    (ranges.map fun range => (range.ownerHash, range.nextHash))

structure ImageNsecRangeGroup where
  cls : UInt16
  indexed : Bool
  ranges : List ImageNsecRange

structure ImageNsec3RangeGroup where
  cls : UInt16
  paramSet : ℕ
  indexed : Bool
  ranges : List ImageNsec3Range

namespace ZoneImage

def numberedRrsets : List (ℕ × ImageRrset) :=
  image.rrsets.zipIdx.map fun entry => (entry.2, entry.1)

def rrsetsOfType (rrType : UInt16) : List (ℕ × ImageRrset) :=
  image.numberedRrsets.filter fun entry => entry.2.rrType == rrType

/-- `precompute_nsec_ranges`: a record whose next name cannot be read is left
out. -/
def nsecRanges : List ImageNsecRange :=
  let ranges := (image.rrsetsOfType RecordType.nsec).flatMap fun entry =>
    if 255 < entry.2.owner.wireLen then
      []
    else
      entry.2.records.filterMap fun record =>
        (canonicalWireLabelRanges record.rdata).map fun next =>
          { rrsetId := entry.1
            cls := entry.2.cls
            ownerKey := canonicalOrderKey entry.2.owner.lowerLabels
            nextKey := canonicalOrderKey (next.1.map lowerLabel) }
  ranges.insertionSort fun left right =>
    toLex (left.cls.toNat, left.ownerKey) ≤ toLex (right.cls.toNat, right.ownerKey)

def nsecRangeGroups : List ImageNsecRangeGroup :=
  (image.nsecRanges.splitBy fun left right => left.cls == right.cls).map fun ranges =>
    { cls := (ranges.head?.map ImageNsecRange.cls).getD 0
      indexed := nsecRangeGroupIsIndexable ranges
      ranges }

/-- `precompute_nsec3_ranges` for one RRset: its first record counts, and its
parameters are numbered in the order of their first use. -/
def addNsec3Range (origin : DomainName) (state : List Nsec3Params × List ImageNsec3Range)
    (entry : ℕ × ImageRrset) : List Nsec3Params × List ImageNsec3Range :=
  match entry.2.records.head? with
  | none => state
  | some record =>
    match nsec3ParamsFromRdata record.rdata, nsec3NextHashBytes record.rdata,
        nsec3OwnerHashBytes entry.2.owner origin with
    | some params, some nextHash, some ownerHash =>
      let paramSets := if params ∈ state.1 then state.1 else state.1 ++ [params]
      (paramSets, state.2 ++
        [{ rrsetId := entry.1
           cls := entry.2.cls
           paramSet := paramSets.idxOf params
           ownerHash
           nextHash }])
    | _, _, _ => state

def nsec3ParamSetsAndRanges : List Nsec3Params × List ImageNsec3Range :=
  (image.rrsetsOfType RecordType.nsec3).foldl (addNsec3Range image.origin) ([], [])

def nsec3ParamSets : List Nsec3Params := image.nsec3ParamSetsAndRanges.1

def nsec3Ranges : List ImageNsec3Range :=
  image.nsec3ParamSetsAndRanges.2.insertionSort fun left right =>
    toLex (left.cls.toNat, toLex (left.paramSet, octets left.ownerHash)) ≤
      toLex (right.cls.toNat, toLex (right.paramSet, octets right.ownerHash))

def nsec3RangeGroups : List ImageNsec3RangeGroup :=
  (image.nsec3Ranges.splitBy fun left right =>
    left.cls == right.cls && left.paramSet == right.paramSet).map fun ranges =>
      { cls := (ranges.head?.map ImageNsec3Range.cls).getD 0
        paramSet := (ranges.head?.map ImageNsec3Range.paramSet).getD 0
        indexed := nsec3RangeGroupIsIndexable ranges
        ranges }

def apexNsec3Params : List ImageRrset :=
  image.rrsets.filter fun rrset => rrset.rrType == RecordType.nsec3Param &&
    image.ownerIsOrigin rrset

/-- `select_dnssec_denial_chain`: the first parameters of the apex for which the
zone has a closed chain. -/
def activeNsec3ParamSet : Option (UInt16 × ℕ) :=
  image.apexNsec3Params.findSome? fun rrset =>
    rrset.records.findSome? fun record =>
      (nsec3paramParamsFromRdata record.rdata).bind fun params =>
        (image.nsec3RangeGroups.find? fun group =>
          group.cls == rrset.cls && group.indexed &&
            image.nsec3ParamSets[group.paramSet]? == some params).map fun group =>
            (group.cls, group.paramSet)

def completeNsec : Bool := image.nsecRangeGroups.any fun group => group.indexed

def dnssecDenialBroken : Bool :=
  if image.apexNsec3Params.isEmpty then
    !(image.rrsetsOfType RecordType.nsec).isEmpty && !image.completeNsec
  else
    image.activeNsec3ParamSet.isNone

def nsecDenialActive : Bool :=
  image.activeNsec3ParamSet.isNone && image.completeNsec

def nsec3DenialActive : Bool := image.activeNsec3ParamSet.isSome

/-- A binary search by `partition_point`: the ranges ascend in the order of
their owners, and the last one wraps around. -/
def nsecCandidate (ranges : List ImageNsecRange) (name : List (List ℕ)) : Option ImageNsecRange :=
  let insertion := (ranges.takeWhile fun range => range.ownerKey < name).length
  if insertion = 0 then ranges.getLast? else ranges[insertion - 1]?

def nsecRrsetCoveringLabelView (view : NameLabelView) (qclass : UInt16) : Option ℕ :=
  let name := canonicalOrderKey view.canonicalLabels
  image.nsecRangeGroups.findSome? fun group =>
    if !group.indexed || !qclassMatches group.cls qclass then
      none
    else
      (nsecCandidate group.ranges name).bind fun range =>
        if range.covers name then some range.rrsetId else none

/-- The range of a hash, and whether the hash is its owner's. Only closed chains
are searched, so owner hashes are distinct. -/
def nsec3RangeMatch (ranges : List ImageNsec3Range) (hash : List UInt8) : Option (ℕ × Bool) :=
  match ranges.find? fun range => range.ownerHash == hash with
  | some range => some (range.rrsetId, true)
  | none =>
    let insertion :=
      (ranges.takeWhile fun range => octets range.ownerHash < octets hash).length
    let candidate := if insertion = 0 then ranges.getLast? else ranges[insertion - 1]?
    candidate.bind fun range =>
      if nsec3RangeCoversHash range.ownerHash range.nextHash hash then
        some (range.rrsetId, false)
      else
        none

section Nsec3

variable (sha1 : List UInt8 → List UInt8)

/-- The search of the NSEC3 groups for a range that matches exactly, or for one
that covers the name. The flag notes a group left out for its iterations. -/
def nsec3SearchGroups (image : ZoneImage) (exact : Bool) (view : NameLabelView) (qclass : UInt16)
    (nsec3MaxIterations : UInt16) : List ImageNsec3RangeGroup → Bool → Option ℕ × Bool
  | [], exceeded => (none, exceeded)
  | group :: rest, exceeded =>
    if image.activeNsec3ParamSet ≠ some (group.cls, group.paramSet) ∨ group.indexed = false ∨
        qclassMatches group.cls qclass = false then
      nsec3SearchGroups image exact view qclass nsec3MaxIterations rest exceeded
    else
      match image.nsec3ParamSets[group.paramSet]? with
      | none => nsec3SearchGroups image exact view qclass nsec3MaxIterations rest exceeded
      | some params =>
        if nsec3MaxIterations < params.iterations then
          nsec3SearchGroups image exact view qclass nsec3MaxIterations rest true
        else
          match (nsec3HashLabelView sha1 view params).bind (nsec3RangeMatch group.ranges) with
          | some (rrsetId, isExact) =>
            if isExact = exact then
              (some rrsetId, exceeded)
            else
              nsec3SearchGroups image exact view qclass nsec3MaxIterations rest exceeded
          | none => nsec3SearchGroups image exact view qclass nsec3MaxIterations rest exceeded

def nsec3ExactRrsetForLabelView (image : ZoneImage) (view : NameLabelView) (qclass : UInt16)
    (exceeded : Bool) (nsec3MaxIterations : UInt16) : Option ℕ × Bool :=
  image.nsec3SearchGroups sha1 true view qclass nsec3MaxIterations image.nsec3RangeGroups exceeded

def nsec3CoveringRrsetForLabelView (image : ZoneImage) (view : NameLabelView) (qclass : UInt16)
    (exceeded : Bool) (nsec3MaxIterations : UInt16) : Option ℕ × Bool :=
  image.nsec3SearchGroups sha1 false view qclass nsec3MaxIterations image.nsec3RangeGroups exceeded

end Nsec3

end ZoneImage

end BoronDns
