import BoronDns.Lib.ArenaTrie
import BoronDns.RdataNames
import BoronDns.WireRecord
import Mathlib.Data.List.Lex
import Mathlib.Data.List.Sort
import Mathlib.Data.Prod.Lex

/-!
The compiled form of a zone. RRsets are sorted and numbered, every RRset hangs
on the trie node of its owner, and each node notes whether its name exists for
ordinary queries and which delegation and which DNAME cover it. Hash tables and
bitmaps that only speed up a search are represented by the map they implement.
-/

namespace BoronDns

structure ImageRecord where
  rdata : Rdata
  rdataEncoding : PackedRdataEncoding
  /-- The TTL of this record where it is not the TTL of the RRset. -/
  ttlOverride : Option UInt32
  deriving DecidableEq

structure ImageRrset where
  owner : DomainName
  fixedFields : ZoneImageRecordFixedFields
  negativeTtl : UInt32
  records : List ImageRecord
  deriving DecidableEq

namespace ImageRrset

def rrType (rrset : ImageRrset) : UInt16 := rrset.fixedFields.rrType

def cls (rrset : ImageRrset) : UInt16 := rrset.fixedFields.cls

def ownerLabelCount (rrset : ImageRrset) : ℕ := rrset.owner.labelCount

def key (rrset : ImageRrset) : RrsetKey :=
  ⟨rrset.owner.canonicalKey, rrset.rrType, rrset.cls⟩

end ImageRrset

/-- A node of the trie while the image is built; its items are RRset numbers. -/
abbrev BuildNode := ArenaTrie.Node Label ℕ

structure NameNode where
  build : BuildNode
  ordinaryNameExists : Bool
  nearestInDelegation : Option ℕ
  nearestInDname : Option ℕ

structure ZoneImage where
  origin : DomainName
  serial : Option UInt32
  rrsets : List ImageRrset
  nodes : List NameNode

inductive ZoneImageBuildError
  | outOfZoneOwner (owner origin : NameKey)
  | rdataTooLarge
  deriving DecidableEq

def qclassMatches (cls qclass : UInt16) : Bool := qclass == classAny || cls == qclass

/-- The labels of `name` in front of `origin`, when it is at or below it. -/
def relativeLabelSlice (name origin : DomainName) : Option (List Label) :=
  if name.isEqualOrSubdomainOf origin then
    some (name.labels.take (name.labels.length - origin.labels.length))
  else
    none

variable (origin : DomainName) (rrsets : List ImageRrset)

/-- The path of an owner in the trie: its labels below the origin, lowercased
and read from the right. -/
def ownerPath (owner : DomainName) : List Label :=
  ((owner.labels.take (owner.labels.length - origin.labels.length)).map lowerLabel).reverse

namespace ZoneImageBuilder

/-- `record_ttl_by_owner_key`: a signature has the TTL of the RRset it covers. -/
def recordTtlByOwnerKey (rrsets : List Rrset) (ownerKey : NameKey) (cls rrType : UInt16)
    (fallbackTtl : UInt32) (rdata : Rdata) : UInt32 :=
  if rrType = RecordType.rrsig then
    match rrsigTypeCoveredRdata rdata with
    | none => fallbackTtl
    | some coveredType =>
      let covered := if cls = 255 then
          rrsets.find? fun covered => covered.owner.canonicalKey = ownerKey ∧
            covered.rrType = coveredType
        else rrsets.find? fun covered => covered.key = ⟨ownerKey, coveredType, cls⟩
      covered.elim fallbackTtl Rrset.ttl
  else
    fallbackTtl

def imageRecord (rrsets : List Rrset) (rrset : Rrset) (rdata : Rdata) : ImageRecord :=
  let recordTtl := recordTtlByOwnerKey rrsets rrset.owner.canonicalKey rrset.cls rrset.rrType
    rrset.ttl rdata
  { rdata
    rdataEncoding := zoneImageRdataEncoding rrset.rrType rdata
    ttlOverride := if recordTtl ≠ rrset.ttl then some recordTtl else none }

/-- Octet strings are ordered like lists of numbers. -/
def octets (bytes : List UInt8) : List ℕ := bytes.map UInt8.toNat

def sortRdatas (rdatas : List Rdata) : List Rdata :=
  rdatas.insertionSort fun left right => octets left ≤ octets right

/-- `push_rrset`, for the RRsets of one zone: the data is sorted, and an SOA
keeps the TTL of a negative answer. -/
def imageRrset (rrsets : List Rrset) (rrset : Rrset) : ImageRrset :=
  let rdatas := sortRdatas rrset.rdatas
  { owner := rrset.owner
    fixedFields := ⟨rrset.rrType, rrset.cls, rrset.ttl⟩
    negativeTtl :=
      if rrset.rrType = RecordType.soa then
        match rdatas.head?.bind soaMinimum with
        | none => rrset.ttl
        | some minimum => min rrset.ttl minimum
      else
        rrset.ttl
    records := rdatas.map (imageRecord rrsets rrset) }

/-- The order in which RRsets are numbered. -/
def rrsetSortKey (rrset : Rrset) : List ℕ ×ₗ ℕ ×ₗ ℕ ×ₗ ℕ :=
  toLex (octets rrset.owner.canonicalKey,
    toLex (rrset.cls.toNat, toLex (rrset.rrType.toNat, rrset.ttl.toNat)))

def sortRrsets (rrsets : List Rrset) : List Rrset :=
  rrsets.insertionSort fun left right => rrsetSortKey left ≤ rrsetSortKey right

def rrsetPath (rrsetId : ℕ) : List Label :=
  match rrsets[rrsetId]? with
  | none => []
  | some rrset => ownerPath origin rrset.owner

/-- `attach_rrset` for every RRset in turn. -/
def buildNodes : List BuildNode :=
  ArenaTrie.attachAll (rrsetPath origin rrsets) (List.range rrsets.length)

variable (node : BuildNode)

def nodeRrsets : List (ℕ × ImageRrset) :=
  node.items.filterMap fun id => rrsets[id]?.map fun rrset => (id, rrset)

def ownsOrdinaryRrset : Bool :=
  let owned := nodeRrsets rrsets node
  let ownsNsec3 := owned.any fun entry => entry.2.rrType == RecordType.nsec3
  owned.any fun entry => entry.2.rrType != RecordType.nsec3 &&
    (entry.2.rrType != RecordType.rrsig || !ownsNsec3)

variable (nodes : List BuildNode)

/-- Children have larger numbers than their parent, so the flags are settled
from the last node to the first. -/
def ordinaryNameFlags : List Bool :=
  (List.range nodes.length).foldr
    (fun i flags =>
      match nodes[i]? with
      | none => flags
      | some node =>
        flags.set i (ownsOrdinaryRrset rrsets node || node.children.entries.any fun entry =>
          flags.getD entry.2 false))
    (List.replicate nodes.length false)

def findBuildNodeInRrset (rrType : UInt16) : Option ℕ :=
  ((nodeRrsets rrsets node).find? fun entry => entry.2.rrType == rrType && entry.2.cls ==
    classIn).map Prod.fst

/-- One node of the image, given the nodes before it. The first delegation and
the first DNAME on the way down cover everything below them. -/
def materialiseNode (flags : List Bool) (nodes : List NameNode) (index : ℕ) (node : BuildNode) :
    NameNode :=
  let inheritedDelegation :=
    if index = 0 then none else nodes[node.parent]?.bind NameNode.nearestInDelegation
  let inheritedDname :=
    if index = 0 then none else nodes[node.parent]?.bind NameNode.nearestInDname
  { build := node
    ordinaryNameExists := flags.getD index false
    nearestInDelegation :=
      match inheritedDelegation with
      | some delegation => some delegation
      | none => if index = 0 then none else findBuildNodeInRrset rrsets node RecordType.ns
    nearestInDname :=
      match inheritedDname with
      | some dname => some dname
      | none => findBuildNodeInRrset rrsets node RecordType.dname }

def materialiseNodes : List NameNode :=
  nodes.zipIdx.foldl
    (fun done entry => done ++
    [materialiseNode rrsets (ordinaryNameFlags rrsets nodes) done entry.2 entry.1]) []

end ZoneImageBuilder

namespace ZoneImage

open ZoneImageBuilder

/-- `compile`, over the RRsets of the snapshot. -/
def compileRrsets (serial : Option UInt32) (rrsets : List Rrset) :
    Except ZoneImageBuildError ZoneImage :=
  match rrsets.find? fun rrset => !rrset.owner.isEqualOrSubdomainOf origin with
  | some rrset => .error (.outOfZoneOwner rrset.owner.canonicalKey origin.canonicalKey)
  | none =>
    if (rrsets.any fun rrset => rrset.rdatas.any fun rdata => 65535 < rdata.length) = true then
      .error .rdataTooLarge
    else
      let imageRrsets := (sortRrsets rrsets).map (imageRrset rrsets)
      .ok
        { origin
          serial
          rrsets := imageRrsets
          nodes := materialiseNodes imageRrsets (buildNodes origin imageRrsets) }

end ZoneImage

end BoronDns
