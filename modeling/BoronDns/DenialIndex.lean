import BoronDns.DenialChain
import BoronDns.Lib.FiniteMap
import BoronDns.Lib.Treap

/-!
The ordered indexes of a snapshot over its NSEC and NSEC3 RRsets, the counts of
the NSEC3 hash parameters in use, and the verdict of the chain check. A snapshot
builds them from all RRsets, or changes those of its predecessor by the denial
RRsets that differ; both describe the RRsets they are for.
-/

namespace BoronDns

open ZoneImageBuilder List AList

variable {left right : Rrset} {ownerHash : List UInt8} {entry : (_ : RrsetKey) × Rrset}

abbrev NsecOrderKey := ℕ ×ₗ List ℕ

abbrev Nsec3OrderKey := ℕ ×ₗ ℕ ×ₗ ℕ ×ₗ List ℕ ×ₗ List ℕ

/-- What a snapshot takes from outside its code: the hashes that place keys in
the trees and in the shards, and the size of a class set. -/
structure Platform where
  nsecPriority : NsecOrderKey → ℕ
  nsec3Priority : Nsec3OrderKey → ℕ
  nameHash : NameKey → UInt64
  classSetBytes : ℕ

def Platform.rrsetShardIndex (platform : Platform) (ownerKey : NameKey) (shardCount : ℕ) : ℕ :=
  if shardCount = 1 then 0 else (platform.nameHash ownerKey).toNat &&& (shardCount - 1)

/-- A shard is copied for the first replacement that goes into it, and else shared. -/
def Platform.sharesShard (platform : Platform) (shardCount : ℕ)
    (replacements : List (RrsetKey × Option Rrset)) (shard : ℕ) : Bool :=
  replacements.all fun change => platform.rrsetShardIndex change.1.owner shardCount ≠ shard

theorem Platform.rrsetShardIndex_lt (platform : Platform) (ownerKey : NameKey) {shardCount : ℕ}
    (h : 0 < shardCount) : platform.rrsetShardIndex ownerKey shardCount < shardCount := by
  unfold rrsetShardIndex
  split
  · exact h
  · exact lt_of_le_of_lt Nat.and_le_right (Nat.sub_lt h Nat.one_pos)

structure DenialIndexes (platform : Platform) where
  nsec : OrderIndex NsecOrderKey RrsetKey platform.nsecPriority
  nsec3 : OrderIndex Nsec3OrderKey RrsetKey platform.nsec3Priority
  nsec3ParamCounts : AList (fun _ : UInt16 × Nsec3Params => ℕ)
  broken : Bool

variable {platform : Platform}

abbrev RrsetMap := AList (fun _ : RrsetKey => Rrset)

variable (indexes : DenialIndexes platform) (previous current rrsets : RrsetMap)
  (origin : DomainName) (rrset : Rrset) (state : DenialIndexes platform × Bool)

/-- Every RRset is stored under its own key. -/
def KeysMatch : Prop :=
  ∀ key rrset, rrsets.lookup key = some rrset → rrset.key = key

namespace DenialIndexes

variable (cls : UInt16)

def nsecOrderKey (owner : DomainName) : NsecOrderKey :=
  toLex (cls.toNat, octets (canonicalOrderKey owner))

def nsec3OrderKey (params : Nsec3Params) (ownerHash : List UInt8) : Nsec3OrderKey :=
  toLex (cls.toNat, toLex (params.hashAlgorithm.toNat, toLex (params.iterations.toNat,
    toLex (octets params.salt, octets ownerHash))))

theorem nsec3OrderKey_inj {cls cls' : UInt16} {params params' : Nsec3Params}
    {ownerHash' : List UInt8}
    (h : nsec3OrderKey cls params ownerHash = nsec3OrderKey cls' params' ownerHash') :
    cls = cls' ∧ params = params' ∧ ownerHash = ownerHash' := by
  obtain ⟨hclass, h⟩ := Prod.mk.inj (toLex.injective h)
  obtain ⟨halgorithm, h⟩ := Prod.mk.inj (toLex.injective h)
  obtain ⟨hiterations, h⟩ := Prod.mk.inj (toLex.injective h)
  obtain ⟨hsalt, hhash⟩ := Prod.mk.inj (toLex.injective h)
  refine ⟨UInt16.toNat_inj.mp hclass, ?_, octets_inj hhash⟩
  cases params
  cases params'
  simp only [Nsec3Params.mk.injEq]
  exact ⟨UInt8.toNat_inj.mp halgorithm, UInt16.toNat_inj.mp hiterations, octets_inj hsalt⟩

def empty : DenialIndexes platform := ⟨OrderIndex.empty, OrderIndex.empty, ∅, false⟩

variable (key : RrsetKey)

/-- One NSEC3 record of an RRset goes into the index. -/
def insertNsec3 (cls : UInt16) (ownerHash : List UInt8)
    (indexes : DenialIndexes platform) (rdata : Rdata) : DenialIndexes platform :=
  match nsec3ParamsFromRdata rdata with
  | none => indexes
  | some params =>
    { indexes with
      nsec3 := indexes.nsec3.insert (nsec3OrderKey cls params ownerHash) key
      nsec3ParamCounts := AList.countUp (· % 2 ^ 32) indexes.nsec3ParamCounts (cls, params) }

def removeNsec3 (ownerHash : List UInt8) (indexes : DenialIndexes platform)
    (rdata : Rdata) : DenialIndexes platform :=
  match nsec3ParamsFromRdata rdata with
  | none => indexes
  | some params =>
    { indexes with
      nsec3 := indexes.nsec3.remove (nsec3OrderKey cls params ownerHash)
      nsec3ParamCounts := AList.countDown indexes.nsec3ParamCounts (cls, params) }

def insertRrset (rrset : Rrset) (origin : DomainName) : DenialIndexes platform :=
  if rrset.rrType = RecordType.nsec then
    { indexes with nsec := indexes.nsec.insert (nsecOrderKey rrset.cls rrset.owner) key }
  else if rrset.rrType = RecordType.nsec3 then
    match nsec3OwnerHashLabel rrset.owner origin with
    | none => indexes
    | some ownerHash => rrset.rdatas.foldl (insertNsec3 key rrset.cls ownerHash) indexes
  else
    indexes

def removeRrset (origin : DomainName) : DenialIndexes platform :=
  if rrset.rrType = RecordType.nsec then
    { indexes with nsec := indexes.nsec.remove (nsecOrderKey rrset.cls rrset.owner) }
  else if rrset.rrType = RecordType.nsec3 then
    match nsec3OwnerHashLabel rrset.owner origin with
    | none => indexes
    | some ownerHash => rrset.rdatas.foldl (removeNsec3 rrset.cls ownerHash) indexes
  else
    indexes

def build : DenialIndexes platform :=
  { rrsets.entries.foldl (fun indexes entry => indexes.insertRrset entry.1 entry.2
      origin) empty with
    broken := dnssecDenialChainBroken rrsets.values origin }

/-- An RRset is taken out, and what is now stored under its key put in. -/
def replaceRrset (rrset : Rrset) : DenialIndexes platform :=
  match current.lookup key with
  | none => indexes.removeRrset rrset origin
  | some next => (indexes.removeRrset rrset origin).insertRrset key next origin

/-- An RRset of the predecessor that is not the same any more. -/
def updateOld (entry : (_ : RrsetKey) × Rrset) : DenialIndexes platform × Bool :=
  if isDenialValidationType entry.2.rrType ∧ current.lookup entry.1 ≠ some entry.2 then
    (state.1.replaceRrset current origin entry.1 entry.2, true)
  else
    state

/-- An RRset the predecessor did not have. -/
def updateNew (entry : (_ : RrsetKey) × Rrset) : DenialIndexes platform × Bool :=
  if isDenialValidationType entry.2.rrType ∧ previous.lookup entry.1 = none then
    (state.1.insertRrset entry.1 entry.2 origin, true)
  else
    state

/-- One shard of the two maps; a shard that they share is passed over. -/
def updateShard (shardCount : ℕ) (shared : ℕ → Bool) (shard : ℕ) :
    DenialIndexes platform × Bool :=
  if shared shard then state
  else
    let placed := fun entry : (_ : RrsetKey) × Rrset =>
      decide (platform.rrsetShardIndex entry.1.owner shardCount = shard)
    let state := (previous.entries.filter placed).foldl (updateOld current origin) state
    (current.entries.filter placed).foldl (updateNew previous origin) state

/-- `shared` tells the shards that are one object in both maps. -/
def updated (previousShards currentShards : ℕ) (shared : ℕ → Bool) : DenialIndexes platform :=
  if previousShards ≠ currentShards then build current origin
  else
    let state := (range currentShards).foldl
      (fun state => updateShard previous current origin state currentShards shared) (indexes, false)
    if state.2 then { state.1 with broken := dnssecDenialChainBroken current.values origin }
    else state.1

/-- How many records of an RRset have these parameters in an NSEC3 chain. -/
def paramShare (entry : UInt16 × Nsec3Params) (_ : RrsetKey) (rrset : Rrset) : ℕ :=
  if rrset.rrType = RecordType.nsec3 ∧ rrset.cls = entry.1 ∧
      (nsec3OwnerHashLabel rrset.owner origin).isSome then
    rrset.rdatas.countP fun rdata => nsec3ParamsFromRdata rdata = some entry.2
  else
    0

def Nsec3At (place : Nsec3OrderKey) : Prop :=
  rrset.rrType = RecordType.nsec3 ∧ ∃ ownerHash, nsec3OwnerHashLabel rrset.owner origin =
    some ownerHash ∧ ∃ rdata ∈ rrset.rdatas, ∃ params, nsec3ParamsFromRdata rdata = some params ∧
      nsec3OrderKey rrset.cls params ownerHash = place

/-- The indexes are those of the denial RRsets of the map. -/
structure Describes : Prop where
  nsec_get : ∀ place key, indexes.nsec.get place = some key ↔
    ∃ rrset, rrsets.lookup key = some rrset ∧ rrset.rrType = RecordType.nsec ∧
      nsecOrderKey rrset.cls rrset.owner = place
  nsec3_get : ∀ place key, indexes.nsec3.get place = some key ↔
    ∃ rrset, rrsets.lookup key = some rrset ∧ Nsec3At origin rrset place
  params : AList.CountsAre indexes.nsec3ParamCounts fun entry =>
    rrsets.total (paramShare origin entry)

/-- The parameters an RRset of the zone's NSEC3 chains is counted under. -/
def chainKeys : List (UInt16 × Nsec3Params) :=
  if rrset.rrType = RecordType.nsec3 ∧ (nsec3OwnerHashLabel rrset.owner origin).isSome then
    (rrset.rdatas.filterMap nsec3ParamsFromRdata).map fun params => (rrset.cls, params)
  else
    []

theorem paramShare_eq (entry : UInt16 × Nsec3Params) (key : RrsetKey) :
    paramShare origin entry key rrset = (chainKeys origin rrset).countP (· = entry) := by
  obtain ⟨cls, params⟩ := entry
  unfold paramShare chainKeys
  by_cases hclass : rrset.cls = cls
  · simp only [hclass, true_and]
    split
    · rw [countP_map, countP_filterMap]
      refine countP_congr fun rdata _ => ?_
      cases nsec3ParamsFromRdata rdata <;> simp
    · rfl
  · rw [if_neg fun h => hclass h.2.1]
    split
    · simp [hclass, countP_map, Function.comp_def]
    · rfl

def NsecAt (place : NsecOrderKey) : Prop :=
  rrset.rrType = RecordType.nsec ∧ nsecOrderKey rrset.cls rrset.owner = place

theorem nsecAt_key {place : NsecOrderKey} (hleft : NsecAt left place)
    (hright : NsecAt right place) : left.key = right.key := by
  obtain ⟨hclass, hown⟩ := Prod.mk.inj (toLex.injective (hleft.2.trans hright.2.symm))
  rw [Rrset.key, Rrset.key, canonicalOrderKey_inj (octets_inj hown), hleft.1, hright.1,
    UInt16.toNat_inj.mp hclass]

/-- RRsets with a common place in the NSEC3 index are one. -/
theorem nsec3At_key {origin : DomainName} {place : Nsec3OrderKey}
    (hleft : Nsec3At origin left place) (hright : Nsec3At origin right place) :
    left.key = right.key := by
  obtain ⟨htype, hash, hhash, -, -, params, -, hplace⟩ := hleft
  obtain ⟨htype', hash', hhash', -, -, params', -, hplace'⟩ := hright
  obtain ⟨hclass, -, hsame⟩ := nsec3OrderKey_inj (hplace.trans hplace'.symm)
  rw [Rrset.key, Rrset.key, nsec3OwnerHashLabel_inj hhash (hsame ▸ hhash'), htype, htype', hclass]

abbrev ParamCounts := AList (fun _ : UInt16 × Nsec3Params => ℕ)

section Writes

variable {indexes : DenialIndexes platform} {origin : DomainName} {rrset : Rrset}
  {value : Option RrsetKey} {count : ParamCounts → UInt16 × Nsec3Params → ParamCounts}

/-- What writing or removing an RRset does: its places are written and its parameters
counted, and the verdict stays. -/
structure Writes (before after : DenialIndexes platform) (origin : DomainName) (rrset : Rrset)
    (value : Option RrsetKey) (count : ParamCounts → UInt16 × Nsec3Params → ParamCounts) :
    Prop where
  broken : after.broken = before.broken
  nsec : AList.Moved before.nsec.get after.nsec.get (NsecAt rrset) value
  nsec3 : AList.Moved before.nsec3.get after.nsec3.get (Nsec3At origin rrset) value
  params : after.nsec3ParamCounts = (chainKeys origin rrset).foldl count before.nsec3ParamCounts

theorem writes_skip (hne : rrset.rrType ≠ RecordType.nsec)
    (hnone : rrset.rrType = RecordType.nsec3 → nsec3OwnerHashLabel rrset.owner origin = none) :
    Writes indexes indexes origin rrset value count := by
  refine ⟨rfl, moved_of_not _ fun place hat => hne hat.1, moved_of_not _ ?_, ?_⟩
  · rintro place ⟨htype, hash, hhash, -⟩
    rw [hnone htype] at hhash
    cases hhash
  · rw [chainKeys, if_neg, foldl_nil]
    rintro ⟨htype, hhash⟩
    simp [hnone htype] at hhash

theorem writes_nsec (htype : rrset.rrType = RecordType.nsec)
    {index : OrderIndex NsecOrderKey RrsetKey platform.nsecPriority}
    (hmoved : AList.Moved indexes.nsec.get index.get
      (· = nsecOrderKey rrset.cls rrset.owner) value) :
    Writes indexes { indexes with nsec := index } origin rrset value count := by
  have hne : rrset.rrType ≠ RecordType.nsec3 := htype ▸ by decide
  refine ⟨rfl, hmoved.congr fun place => ?_, moved_of_not _ fun place hat => hne hat.1, ?_⟩
  · rw [NsecAt, and_iff_right htype, eq_comm]
  · rw [chainKeys, if_neg fun h => hne h.1]
    rfl

/-- A loop over the records of an NSEC3 RRset that writes each of its places. -/
theorem writes_nsec3 {step : DenialIndexes platform → Rdata → DenialIndexes platform}
    {nsec3Step : OrderIndex Nsec3OrderKey RrsetKey platform.nsec3Priority → Nsec3OrderKey →
      OrderIndex Nsec3OrderKey RrsetKey platform.nsec3Priority}
    (htype : rrset.rrType = RecordType.nsec3)
    (hhash : nsec3OwnerHashLabel rrset.owner origin = some ownerHash)
    (hstep : ∀ indexes rdata, step indexes rdata =
      (nsec3ParamsFromRdata rdata).elim indexes fun params => { indexes with
        nsec3 := nsec3Step indexes.nsec3 (nsec3OrderKey rrset.cls params ownerHash)
        nsec3ParamCounts := count indexes.nsec3ParamCounts (rrset.cls, params) })
    (hmoved : ∀ index place, AList.Moved index.get (nsec3Step index place).get (· = place) value) :
    Writes indexes (rrset.rdatas.foldl step indexes) origin rrset value count := by
  have hfold : ∀ (rdatas : List Rdata) (indexes : DenialIndexes platform),
      rdatas.foldl step indexes = { indexes with
        nsec3 := ((rdatas.filterMap nsec3ParamsFromRdata).map fun params =>
          nsec3OrderKey rrset.cls params ownerHash).foldl nsec3Step indexes.nsec3
        nsec3ParamCounts := ((rdatas.filterMap nsec3ParamsFromRdata).map fun params =>
          (rrset.cls, params)).foldl count indexes.nsec3ParamCounts } := by
    intro rdatas
    induction rdatas with
    | nil => exact fun _ => rfl
    | cons rdata rest ih =>
      intro indexes
      rw [foldl_cons, ih, hstep]
      cases hparams : nsec3ParamsFromRdata rdata with
      | none =>
        rw [filterMap_cons_none hparams]
        rfl
      | some params =>
        rw [filterMap_cons_some hparams]
        rfl
  have hne : rrset.rrType ≠ RecordType.nsec := htype ▸ by decide
  rw [hfold]
  refine ⟨rfl, moved_of_not _ fun place hat => hne hat.1,
    (moved_foldl hmoved _ _).congr fun place => ?_, ?_⟩
  · simp only [mem_map, mem_filterMap, Nsec3At, htype, hhash, true_and]
    grind
  · rw [chainKeys, if_pos ⟨htype, by rw [hhash]; rfl⟩]

theorem moved_insert {P : Type} [LinearOrder P] {priority : P → ℕ} (key : RrsetKey)
    (index : OrderIndex P RrsetKey priority) (place : P) :
    AList.Moved index.get (index.insert place key).get (· = place) (some key) :=
  fun at_ => ⟨fun h => by rw [OrderIndex.get_insert, if_pos h],
    fun h => by rw [OrderIndex.get_insert, if_neg h]⟩

theorem moved_remove {P : Type} [LinearOrder P] {priority : P → ℕ}
    (index : OrderIndex P RrsetKey priority) (place : P) :
    AList.Moved index.get (index.remove place).get (· = place) none :=
  fun at_ => ⟨fun h => by rw [OrderIndex.get_remove, if_pos h],
    fun h => by rw [OrderIndex.get_remove, if_neg h]⟩

theorem writes_insertRrset (indexes : DenialIndexes platform) (key : RrsetKey) (rrset : Rrset)
    (origin : DomainName) :
    Writes indexes (indexes.insertRrset key rrset origin) origin rrset (some key)
      (AList.countUp (· % 2 ^ 32)) := by
  unfold insertRrset
  split
  · exact writes_nsec ‹_› (moved_insert key _ _)
  split
  next hne htype =>
    split
    · exact writes_skip hne fun _ => ‹_›
    · refine writes_nsec3 htype ‹_› (fun indexes rdata => ?_) (moved_insert key)
      rw [insertNsec3]
      cases nsec3ParamsFromRdata rdata <;> rfl
  · exact writes_skip ‹_› fun htype => absurd htype ‹_›

theorem writes_removeRrset (indexes : DenialIndexes platform) (rrset : Rrset)
    (origin : DomainName) :
    Writes indexes (indexes.removeRrset rrset origin) origin rrset none AList.countDown := by
  unfold removeRrset
  split
  · exact writes_nsec ‹_› (moved_remove _ _)
  split
  next hne htype =>
    split
    · exact writes_skip hne fun _ => ‹_›
    · refine writes_nsec3 htype ‹_› (fun indexes rdata => ?_) moved_remove
      rw [removeNsec3]
      cases nsec3ParamsFromRdata rdata <;> rfl
  · exact writes_skip ‹_› fun htype => absurd htype ‹_›

end Writes

section Steps

variable {indexes : DenialIndexes platform} {rrsets : RrsetMap} {origin : DomainName}
  {rrset : Rrset}

/-- A free key gets an RRset, or an RRset is removed, and its places and counts follow. -/
theorem Describes.write (h : indexes.Describes rrsets origin) (hkeys : KeysMatch rrsets)
    {after : DenialIndexes platform} {o : Option Rrset}
    {count : ParamCounts → UInt16 × Nsec3Params → ParamCounts}
    (hchange : rrsets.lookup rrset.key = none ∧ o = some rrset ∨
      rrsets.lookup rrset.key = some rrset ∧ o = none)
    (hwrites : Writes indexes after origin rrset (o.map fun _ => rrset.key) count)
    (hparams : AList.CountsAre after.nsec3ParamCounts fun entry =>
      (rrsets.put rrset.key o).total (paramShare origin entry)) :
    after.Describes (rrsets.put rrset.key o) origin := by
  have hnsec : AList.Places NsecAt rrsets indexes.nsec.get := h.nsec_get
  have hnsec3 : AList.Places (Nsec3At origin) rrsets indexes.nsec3.get := h.nsec3_get
  refine ⟨hnsec.put hchange (fun _ _ hother _ hat hself => ?_) hwrites.nsec,
    hnsec3.put hchange (fun _ _ hother _ hat hself => ?_) hwrites.nsec3, hparams⟩
  · rw [← hkeys _ _ hother, nsecAt_key hat hself]
  · rw [← hkeys _ _ hother, nsec3At_key hat hself]

/-- Inserting an RRset keeps the indexes those of the map. -/
theorem Describes.insertRrset (h : indexes.Describes rrsets origin) (hkeys : KeysMatch rrsets)
    (hfresh : rrsets.lookup rrset.key = none)
    (hbound : ∀ entry, (rrsets.put rrset.key (some rrset)).total (paramShare origin entry) <
      2 ^ 32) :
    (indexes.insertRrset rrset.key rrset origin).Describes
      (rrsets.put rrset.key (some rrset)) origin := by
  have hwrites := writes_insertRrset indexes rrset.key rrset origin
  have htotal : ∀ entry, rrsets.total (paramShare origin entry) +
      (chainKeys origin rrset).countP (· = entry) =
      (rrsets.put rrset.key (some rrset)).total (paramShare origin entry) := by
    intro entry
    have hput := rrsets.total_put (paramShare origin entry) rrset.key (some rrset)
    rw [hfresh, share_none, share_some, paramShare_eq] at hput
    exact hput.symm
  refine h.write hkeys (Or.inl ⟨hfresh, rfl⟩) hwrites ?_
  rw [hwrites.params]
  refine (countsAre_foldl_countUp h.params _ fun entry n hn => Nat.mod_eq_of_lt ?_).congr htotal
  exact hn.trans_lt (htotal entry ▸ hbound entry)

/-- Removing an RRset keeps the indexes those of the map. -/
theorem Describes.removeRrset (h : indexes.Describes rrsets origin) (hkeys : KeysMatch rrsets)
    (hlook : rrsets.lookup rrset.key = some rrset) :
    (indexes.removeRrset rrset origin).Describes (rrsets.put rrset.key none) origin := by
  have hwrites := writes_removeRrset indexes rrset origin
  refine h.write hkeys (Or.inr ⟨hlook, rfl⟩) hwrites ?_
  rw [hwrites.params]
  refine (countsAre_foldl_countDown h.params _).congr fun entry => ?_
  have hput := rrsets.total_put (paramShare origin entry) rrset.key none
  rw [hlook, share_none, share_some, paramShare_eq] at hput
  omega

end Steps

/-- The records of a map. -/
def recordTotal : ℕ := rrsets.total fun _ rrset => rrset.rdatas.length

theorem total_paramShare_le (entry : UInt16 × Nsec3Params) :
    rrsets.total (paramShare origin entry) ≤ recordTotal rrsets := by
  refine rrsets.total_mono fun key rrset _ => ?_
  unfold paramShare
  split
  · exact countP_le_length
  · exact Nat.zero_le _

theorem Describes.of_lookup {indexes : DenialIndexes platform} {left right : RrsetMap}
    {origin : DomainName} (h : indexes.Describes left origin)
    (hsame : ∀ key, left.lookup key = right.lookup key) : indexes.Describes right origin := by
  refine ⟨fun place key => ?_, fun place key => ?_, h.params.congr fun entry => total_congr hsame _⟩
  · rw [h.nsec_get, hsame]
  · rw [h.nsec3_get, hsame]

/-- Maps with the same NSEC and NSEC3 RRsets have the same indexes. -/
theorem Describes.congr {indexes : DenialIndexes platform} {left right : RrsetMap}
    {origin : DomainName} (h : indexes.Describes left origin) (hleft : KeysMatch left)
    (hright : KeysMatch right)
    (hsame : ∀ key, isDenialRrType key.rrType = true → left.lookup key = right.lookup key) :
    indexes.Describes right origin := by
  have hswap : ∀ (p : Rrset → Prop), (∀ rrset, p rrset → isDenialRrType rrset.rrType = true) →
      ∀ key, (∃ rrset, left.lookup key = some rrset ∧ p rrset) ↔
      ∃ rrset, right.lookup key = some rrset ∧ p rrset := by
    intro p hp key
    constructor
    · rintro ⟨rrset, hlook, hrrset⟩
      have htype : key.rrType = rrset.rrType := by rw [← hleft key rrset hlook]; rfl
      exact ⟨rrset, hsame key (htype ▸ hp rrset hrrset) ▸ hlook, hrrset⟩
    · rintro ⟨rrset, hlook, hrrset⟩
      have htype : key.rrType = rrset.rrType := by rw [← hright key rrset hlook]; rfl
      exact ⟨rrset, (hsame key (htype ▸ hp rrset hrrset)).symm ▸ hlook, hrrset⟩
  refine ⟨fun place key => ?_, fun place key => ?_, h.params.congr fun entry => ?_⟩
  · rw [h.nsec_get, hswap]
    rintro rrset ⟨htype, -⟩
    rw [htype]
    decide
  · rw [h.nsec3_get, hswap]
    rintro rrset ⟨htype, -⟩
    rw [htype]
    decide
  · refine total_congr_share fun key => ?_
    by_cases hdenial : isDenialRrType key.rrType = true
    · rw [hsame key hdenial]
    · have hzero : ∀ (rrsets : RrsetMap), KeysMatch rrsets →
          AList.share (paramShare origin entry) key (rrsets.lookup key) = 0 := by
        intro rrsets hkeys
        cases hlook : rrsets.lookup key with
        | none => rfl
        | some rrset =>
          rw [share_some, paramShare, if_neg]
          rintro ⟨htype, -⟩
          have hkey : key.rrType = rrset.rrType := by rw [← hkeys key rrset hlook]; rfl
          rw [hkey, htype] at hdenial
          exact hdenial (by decide)
      rw [hzero left hleft, hzero right hright]

theorem describes_empty (platform : Platform) (origin : DomainName) :
    (empty : DenialIndexes platform).Describes ∅ origin where
  nsec_get place key := by simp [empty]
  nsec3_get place key := by simp [empty]
  params entry := rfl

theorem keysMatch_insert {rrsets : RrsetMap} (h : KeysMatch rrsets) (rrset : Rrset) :
    KeysMatch (rrsets.insert rrset.key rrset) := by
  intro key other hother
  rw [lookup_insert_ite] at hother
  split at hother
  next hkey => rw [hkey, ← Option.some.inj hother]
  · exact h key other hother

theorem keysMatch_erase {rrsets : RrsetMap} (h : KeysMatch rrsets) (key : RrsetKey) :
    KeysMatch (rrsets.erase key) := by
  intro wanted other hother
  rw [lookup_erase_ite] at hother
  split at hother
  · cases hother
  · exact h wanted other hother

/-- The indexes and the verdict are those of the map. -/
structure IsFor : Prop extends indexes.Describes rrsets origin where
  broken_eq : indexes.broken = dnssecDenialChainBroken rrsets.values origin

section Update

variable {origin : DomainName} {previous current : RrsetMap} {rrsets : RrsetMap}

theorem keysMatch_between (h : AList.Between previous current rrsets)
    (hprev : KeysMatch previous) (hcur : KeysMatch current) : KeysMatch rrsets := by
  intro key rrset hlook
  rcases h key with hsame | hsame
  · exact hprev key rrset (hsame ▸ hlook)
  · exact hcur key rrset (hsame ▸ hlook)

/-- What a change under one key does to the indexes, and whether it is one. -/
def changeRrset (origin : DomainName) (state : DenialIndexes platform × Bool)
    (change : RrsetKey × Option Rrset) (old : Option Rrset) : DenialIndexes platform × Bool :=
  if change.2 = old then state
  else
    let removed := old.elim state.1 fun rrset => state.1.removeRrset rrset origin
    (change.2.elim removed fun rrset => removed.insertRrset change.1 rrset origin, true)

/-- The indexes on the way from one version to the next: they describe a map between
the two, and while the flag is down nothing has changed. -/
structure OnTheWay (previous current : RrsetMap) (origin : DomainName) (broken : Bool)
    (state : DenialIndexes platform × Bool) (rrsets : RrsetMap) : Prop where
  describes : state.1.Describes rrsets origin
  between : AList.Between previous current rrsets
  broken_eq : state.1.broken = broken
  unchanged : state.2 = false → ∀ key, rrsets.lookup key = previous.lookup key

/-- The counters can count the records of every set of parameters, in every map on the way from
one version to the next. -/
def ParamsFit (origin : DomainName) (previous current : RrsetMap) : Prop :=
  ∀ rrsets, AList.Between previous current rrsets →
    ∀ entry, rrsets.total (paramShare origin entry) < 2 ^ 32

theorem paramsFit_of_recordTotal (h : recordTotal previous + recordTotal current < 2 ^ 32) :
    ParamsFit origin previous current := fun _ hbetween _ =>
  ((total_paramShare_le _ _ _).trans (total_le_add _ _ _ _ hbetween)).trans_lt h

theorem ParamsFit.built (h : ParamsFit origin previous current)
    (hbetween : AList.Between previous current rrsets) : ParamsFit origin ∅ rrsets := by
  intro others hothers entry
  refine (total_le_of_share_le fun key => ?_).trans_lt (h rrsets hbetween entry)
  rcases hothers key with hkey | hkey
  · rw [hkey]
    exact Nat.zero_le _
  · rw [hkey]

/-- One change of a key to its next value. -/
theorem OnTheWay.changeRrset {broken : Bool} {state : DenialIndexes platform × Bool}
    (h : OnTheWay previous current origin broken state rrsets) (hprev : KeysMatch previous)
    (hcur : KeysMatch current) (hbound : ParamsFit origin previous current)
    {change : RrsetKey × Option Rrset} (hchange : current.lookup change.1 = change.2) :
    OnTheWay previous current origin broken
      (DenialIndexes.changeRrset origin state change (rrsets.lookup change.1))
      (rrsets.put change.1 change.2) := by
  obtain ⟨key, next⟩ := change
  have hput := h.between.put hchange
  have hkeys := keysMatch_between h.between hprev hcur
  unfold DenialIndexes.changeRrset
  split
  next hsame =>
    have hlook := rrsets.lookup_put_self hsame.symm
    exact ⟨h.describes.of_lookup fun wanted => (hlook wanted).symm, hput, h.broken_eq,
      fun hflag wanted => (hlook wanted).trans (h.unchanged hflag wanted)⟩
  · have hremoved : ∃ removed : DenialIndexes platform,
        (rrsets.lookup key).elim state.1 (fun rrset => state.1.removeRrset rrset origin) = removed ∧
          removed.Describes (rrsets.put key none) origin ∧ removed.broken = broken := by
      cases hold : rrsets.lookup key with
      | none =>
        exact ⟨state.1, rfl, h.describes.of_lookup fun wanted =>
          (rrsets.lookup_put_self hold wanted).symm, h.broken_eq⟩
      | some rrset =>
        obtain rfl := hkeys key rrset hold
        exact ⟨_, rfl, h.describes.removeRrset hkeys hold,
          (writes_removeRrset state.1 rrset origin).broken.trans h.broken_eq⟩
    obtain ⟨removed, heq, hdescribes, hbroken⟩ := hremoved
    rw [heq]
    cases hnext : next with
    | none =>
      rw [hnext] at hput
      exact ⟨hdescribes, hput, hbroken, fun hflag => absurd hflag (by simp)⟩
    | some rrset =>
      rw [hnext] at hchange hput
      obtain rfl := hcur key rrset hchange
      have hlook : ∀ wanted,
          ((rrsets.put rrset.key none).put rrset.key (some rrset)).lookup wanted =
          (rrsets.put rrset.key (some rrset)).lookup wanted := by
        intro wanted
        simp only [lookup_put]
        split <;> rfl
      have hinserted := hdescribes.insertRrset (keysMatch_erase hkeys _)
        (by rw [lookup_put, if_pos rfl]) fun entry => by
          rw [total_congr hlook]
          exact hbound _ hput entry
      exact ⟨hinserted.of_lookup hlook, hput,
        (writes_insertRrset removed rrset.key rrset origin).broken.trans hbroken,
        fun hflag => absurd hflag (by simp)⟩

/-- The changes of distinct keys, one after another. -/
theorem OnTheWay.changes {indexes : DenialIndexes platform} (h : indexes.Describes previous origin)
    (hprev : KeysMatch previous) (hcur : KeysMatch current)
    (hbound : ParamsFit origin previous current)
    {changes : List (RrsetKey × Option Rrset)} (hdist : (changes.map Prod.fst).Nodup)
    (hchanges : ∀ change ∈ changes, current.lookup change.1 = change.2) :
    OnTheWay previous current origin indexes.broken
      (changes.foldl (fun state change => DenialIndexes.changeRrset origin state change
        (previous.lookup change.1)) (indexes, false)) (previous.putAll changes) :=
  foldl_putAll_invariant hdist
    (fun _ _ change hmem hstate => hstate.changeRrset hprev hcur hbound
    (hchanges change hmem)) ⟨h, fun _ => Or.inl rfl, rfl, fun _ _ => rfl⟩

end Update

section Build

variable {origin : DomainName}

theorem lookup_of_entry {rrsets : RrsetMap} (h : entry ∈ rrsets.entries) :
    rrsets.lookup entry.1 = some entry.2 := mem_lookup_iff.mpr h

theorem build_isFor (hkeys : KeysMatch rrsets) (hbound : ParamsFit origin ∅ rrsets) :
    (build rrsets origin : DenialIndexes platform).IsFor rrsets origin := by
  set changes := rrsets.entries.map fun entry => (entry.1, some entry.2) with hchanges
  have hnames : changes.map Prod.fst = rrsets.keys := by
    rw [hchanges, map_map]
    rfl
  have hmem : ∀ change ∈ changes, rrsets.lookup change.1 = change.2 := by
    intro change hchange
    obtain ⟨entry, hentry, rfl⟩ := mem_map.mp hchange
    exact lookup_of_entry hentry
  have hempty : KeysMatch ∅ := fun key rrset h => absurd h (by simp)
  have hway := OnTheWay.changes (describes_empty platform origin) hempty hkeys hbound
    (hnames ▸ rrsets.keys_nodup) hmem
  -- every RRset goes in under a free key
  have hfold : ∀ (entries : List ((_ : RrsetKey) × Rrset)) (state : DenialIndexes platform × Bool),
      ((entries.map fun entry => (entry.1, some entry.2)).foldl (fun state change =>
        changeRrset origin state change ((∅ : RrsetMap).lookup change.1)) state).1 =
        entries.foldl (fun indexes entry => indexes.insertRrset entry.1 entry.2
            origin) state.1 := by
    intro entries
    induction entries with
    | nil => exact fun _ => rfl
    | cons entry rest ih => exact fun state => ih _
  have hsame : ∀ key, ((∅ : RrsetMap).putAll changes).lookup key = rrsets.lookup key := by
    intro key
    cases hlook : rrsets.lookup key with
    | none =>
      refine lookup_putAll_of_notMem _ _ ?_
      rw [hnames]
      exact lookup_eq_none.mp hlook
    | some rrset =>
      exact lookup_putAll_of_mem _ (hnames ▸ rrsets.keys_nodup)
        (mem_map.mpr ⟨⟨key, rrset⟩, mem_lookup_iff.mp hlook, rfl⟩)
  have hdescribes := hway.describes.of_lookup hsame
  rw [hfold] at hdescribes
  exact ⟨⟨hdescribes.nsec_get, hdescribes.nsec3_get, hdescribes.params⟩, rfl⟩

end Build

theorem values_keys_distinct {rrsets : RrsetMap} (hkeys : KeysMatch rrsets) :
    rrsets.values.Pairwise fun a b => a.key ≠ b.key := by
  rw [AList.values, pairwise_map]
  refine (pairwise_map.mp rrsets.keys_nodup).imp_of_mem fun {a b} ha hb hne hsame => hne ?_
  rw [← hkeys a.1 a.2 (mem_lookup_iff.mpr ha), ← hkeys b.1 b.2 (mem_lookup_iff.mpr hb), hsame]

theorem values_nodup {rrsets : RrsetMap} (hkeys : KeysMatch rrsets) : rrsets.values.Nodup :=
  (values_keys_distinct hkeys).imp fun hne hsame => hne (congrArg Rrset.key hsame)

section Updated

variable {origin : DomainName} {previous current : RrsetMap}

/-- The verdict is the same for maps with the same denial RRsets. -/
theorem dnssecDenialChainBroken_congr (hprev : KeysMatch previous)
    (hcur : KeysMatch current)
    (h : ∀ key, isDenialValidationType key.rrType = true →
      previous.lookup key = current.lookup key) :
    dnssecDenialChainBroken previous.values origin =
      dnssecDenialChainBroken current.values origin := by
  rw [← dnssecDenialChainBroken_filter previous.values,
    ← dnssecDenialChainBroken_filter current.values]
  have hmem : ∀ {left right : RrsetMap}, KeysMatch left → KeysMatch right →
      (∀ key, isDenialValidationType key.rrType = true → left.lookup key = right.lookup key) →
      ∀ rrset ∈ left.values.filter fun rrset => isDenialValidationType rrset.rrType,
      rrset ∈ right.values := by
    intro left right hleft hright hsame rrset hrrset
    obtain ⟨hvalue, htype⟩ := mem_filter.mp hrrset
    obtain ⟨key, hkey⟩ := (left.mem_values rrset).mp hvalue
    have hkeyType : key.rrType = rrset.rrType := by rw [← hleft key rrset hkey]; rfl
    exact (right.mem_values rrset).mpr ⟨key, hsame key (hkeyType ▸ htype) ▸ hkey⟩
  refine dnssecDenialChainBroken_perm ?_ ((values_keys_distinct hprev).filter _)
  refine (perm_ext_iff_of_nodup ?_ ?_).mpr fun rrset => ?_
  · exact (values_nodup hprev).filter _
  · exact (values_nodup hcur).filter _
  · constructor
    · intro hrrset
      exact mem_filter.mpr ⟨hmem hprev hcur h rrset hrrset, (mem_filter.mp hrrset).2⟩
    · intro hrrset
      exact mem_filter.mpr
        ⟨hmem hcur hprev (fun key htype => (h key htype).symm) rrset hrrset,
        (mem_filter.mp hrrset).2⟩

theorem type_of_key {rrsets : RrsetMap} (hkeys : KeysMatch rrsets) (h : entry ∈ rrsets.entries) :
    entry.2.rrType = entry.1.rrType := by
  rw [← hkeys entry.1 entry.2 (lookup_of_entry h)]
  rfl

/-- The denial RRsets of the old version with what has become of them, and behind
them the new ones. -/
def denialChanges (previous current : RrsetMap) : List (RrsetKey × Option Rrset) :=
  ((previous.entries.filter fun entry => isDenialValidationType entry.2.rrType) ++
    current.entries.filter fun entry => isDenialValidationType entry.2.rrType ∧
      previous.lookup entry.1 = none).map fun entry => (entry.1, current.lookup entry.1)

theorem denialChanges_nodup (previous current : RrsetMap) :
    ((denialChanges previous current).map Prod.fst).Nodup := by
  rw [denialChanges, map_map, map_append, nodup_append]
  refine ⟨(filter_sublist.map Sigma.fst).nodup previous.keys_nodup,
    (filter_sublist.map Sigma.fst).nodup current.keys_nodup, ?_⟩
  rintro key hold other hnew rfl
  obtain ⟨entry, hentry, rfl⟩ := mem_map.mp hold
  obtain ⟨next, hnext, hsame⟩ := mem_map.mp hnew
  have hnone := (of_decide_eq_true (mem_filter.mp hnext).2).2
  rw [show next.1 = entry.1 from hsame, lookup_of_entry (mem_filter.mp hentry).1] at hnone
  cases hnone

theorem mem_denialChanges (hprev : KeysMatch previous) (hcur : KeysMatch current)
    {key : RrsetKey} (htype : isDenialValidationType key.rrType = true)
    (h : previous.lookup key ≠ current.lookup key) :
    (key, current.lookup key) ∈ denialChanges previous current := by
  cases hold : previous.lookup key with
  | some rrset =>
    have hmem : (⟨key, rrset⟩ : (_ : RrsetKey) × Rrset) ∈ previous.entries := mem_lookup_iff.mp hold
    exact mem_map.mpr ⟨⟨key, rrset⟩, mem_append_left _
      (mem_filter.mpr ⟨hmem, (type_of_key hprev hmem).symm ▸ htype⟩), rfl⟩
  | none =>
    obtain ⟨rrset, hnew⟩ := Option.ne_none_iff_exists'.mp (hold ▸ h).symm
    have hmem : (⟨key, rrset⟩ : (_ : RrsetKey) × Rrset) ∈ current.entries := mem_lookup_iff.mp hnew
    exact mem_map.mpr ⟨⟨key, rrset⟩, mem_append_right _ (mem_filter.mpr
      ⟨hmem, decide_eq_true ⟨(type_of_key hcur hmem).symm ▸ htype, hold⟩⟩), rfl⟩

variable (platform : Platform) (previous current : RrsetMap) (shardCount : ℕ) (shared : ℕ → Bool)

/-- The changes of one shard, if the two maps do not share it. -/
def shardChanges (shard : ℕ) : List (RrsetKey × Option Rrset) :=
  if shared shard then []
  else (denialChanges previous current).filter fun change =>
    platform.rrsetShardIndex change.1.owner shardCount = shard

def copiedChanges : List (RrsetKey × Option Rrset) :=
  (range shardCount).flatMap (shardChanges platform previous current shardCount shared)

theorem mem_shardChanges {shard : ℕ} {change : RrsetKey × Option Rrset} :
    change ∈ shardChanges platform previous current shardCount shared shard ↔
      shared shard = false ∧ change ∈ denialChanges previous current ∧
        platform.rrsetShardIndex change.1.owner shardCount = shard := by
  unfold shardChanges
  split <;> simp [*]

/-- The two loops over a shard are the loop over its changes. -/
theorem foldl_shardChanges (origin : DomainName) (state : DenialIndexes platform × Bool)
    (shard : ℕ) :
    (shardChanges platform previous current shardCount shared shard).foldl (fun state change =>
        changeRrset origin state change (previous.lookup change.1)) state =
      updateShard previous current origin state shardCount shared shard := by
  unfold shardChanges updateShard
  split
  · rfl
  rw [foldl_filter, denialChanges, foldl_map, foldl_append]
  dsimp only
  rw [foldl_filter, foldl_filter, foldl_filter, foldl_filter]
  have hold : ∀ (state : DenialIndexes platform × Bool), ∀ entry ∈ previous.entries,
      (if isDenialValidationType entry.2.rrType then changeRrset origin state (entry.1,
      current.lookup entry.1)
        (previous.lookup entry.1) else state) = updateOld current origin state entry := by
    intro state entry hentry
    rw [lookup_of_entry hentry, updateOld]
    by_cases htype : isDenialValidationType entry.2.rrType = true
    · by_cases hsame : current.lookup entry.1 = some entry.2
      · simp [changeRrset, hsame]
      · rw [if_pos htype, if_pos ⟨htype, hsame⟩, changeRrset, if_neg hsame, replaceRrset]
        cases current.lookup entry.1 <;> rfl
    · simp [htype]
  have hnew : ∀ (state : DenialIndexes platform × Bool), ∀ entry ∈ current.entries,
      (if decide (isDenialValidationType entry.2.rrType ∧ previous.lookup entry.1 = none) then
        changeRrset origin state (entry.1, current.lookup entry.1)
          (previous.lookup entry.1) else state) =
        updateNew previous origin state entry := by
    intro state entry hentry
    rw [lookup_of_entry hentry, updateNew]
    by_cases hfresh : isDenialValidationType entry.2.rrType = true ∧ previous.lookup entry.1 = none
    · simp [hfresh, changeRrset]
    · simp [hfresh]
  refine (foldl_ext _ _ _ fun state entry hentry => ?_).trans
    (congrArg (fun state => List.foldl _ state _) (foldl_ext _ _ _ fun state entry hentry => ?_))
  · rw [← hnew state entry hentry]
    split <;> split <;> rfl
  · rw [← hold state entry hentry]
    split <;> split <;> rfl

theorem copiedChanges_nodup :
    ((copiedChanges platform previous current shardCount shared).map Prod.fst).Nodup := by
  rw [copiedChanges, map_flatMap, nodup_flatMap]
  refine ⟨fun shard _ => ?_, nodup_range.imp fun {a b} hne key hleft hright => hne ?_⟩
  · unfold shardChanges
    split
    · exact nodup_nil
    · exact (filter_sublist.map _).nodup (denialChanges_nodup previous current)
  · obtain ⟨first, hfirst, rfl⟩ := mem_map.mp hleft
    obtain ⟨second, hsecond, hsame⟩ := mem_map.mp hright
    obtain ⟨-, -, rfl⟩ := (mem_shardChanges ..).mp hfirst
    obtain ⟨-, -, rfl⟩ := (mem_shardChanges ..).mp hsecond
    rw [hsame]

variable {platform previous current shardCount shared}

theorem lookup_of_mem_copiedChanges {change : RrsetKey × Option Rrset}
    (h : change ∈ copiedChanges platform previous current shardCount shared) :
    current.lookup change.1 = change.2 := by
  obtain ⟨shard, -, hplaced⟩ := mem_flatMap.mp h
  obtain ⟨entry, -, rfl⟩ := mem_map.mp ((mem_shardChanges ..).mp hplaced).2.1
  rfl

/-- A shard may be passed over where nothing has changed. -/
theorem mem_copiedChanges (hprev : KeysMatch previous) (hcur : KeysMatch current)
    (hcount : 0 < shardCount) (hshared : ∀ key : RrsetKey,
      shared (platform.rrsetShardIndex key.owner shardCount) = true →
        previous.lookup key = current.lookup key)
    {key : RrsetKey} (htype : isDenialValidationType key.rrType = true)
    (hchanged : previous.lookup key ≠ current.lookup key) :
    (key, current.lookup key) ∈ copiedChanges platform previous current shardCount shared := by
  refine mem_flatMap.mpr ⟨_, mem_range.mpr (platform.rrsetShardIndex_lt key.owner hcount),
    (mem_shardChanges ..).mpr ⟨?_, mem_denialChanges hprev hcur htype hchanged, rfl⟩⟩
  exact Bool.eq_false_iff.mpr fun hskipped => hchanged (hshared key hskipped)

theorem lookup_copiedChanges (hcopied : ∀ key : RrsetKey,
      isDenialValidationType key.rrType = true → previous.lookup key ≠ current.lookup key →
        (key, current.lookup key) ∈ copiedChanges platform previous current shardCount shared)
    {key : RrsetKey} (htype : isDenialValidationType key.rrType = true) :
    (previous.putAll (copiedChanges platform previous current shardCount shared)).lookup key =
      current.lookup key := by
  by_cases hmem : key ∈ (copiedChanges platform previous current shardCount shared).map Prod.fst
  · obtain ⟨change, hchange, rfl⟩ := mem_map.mp hmem
    rw [lookup_putAll_of_mem _ (copiedChanges_nodup ..) hchange]
    exact (lookup_of_mem_copiedChanges hchange).symm
  · rw [lookup_putAll_of_notMem _ _ hmem]
    by_contra hchanged
    exact hmem (mem_map_of_mem (hcopied key htype hchanged))

theorem lookup_of_sharesShard (previous : RrsetMap) {replacements : List (RrsetKey × Option Rrset)}
    (key : RrsetKey) (h : platform.sharesShard shardCount replacements
      (platform.rrsetShardIndex key.owner shardCount) = true) :
    previous.lookup key = (previous.putAll replacements).lookup key := by
  refine (lookup_putAll_of_notMem _ _ fun hmem => ?_).symm
  obtain ⟨change, hchange, rfl⟩ := mem_map.mp hmem
  exact of_decide_eq_true (all_eq_true.mp h change hchange) rfl

/-- The update of the indexes of one version gives those of the next, when the shards the two
share have not changed. -/
theorem updated_isFor {indexes : DenialIndexes platform} (h : indexes.IsFor previous origin)
    (hprev : KeysMatch previous) (hcur : KeysMatch current)
    (hbound : ParamsFit origin previous current) {previousShards : ℕ} (hcount : 0 < shardCount)
    (hshared : ∀ key : RrsetKey, shared (platform.rrsetShardIndex key.owner shardCount) = true →
        previous.lookup key = current.lookup key) :
    (indexes.updated previous current origin previousShards shardCount shared).IsFor
      current origin := by
  unfold DenialIndexes.updated
  split
  · exact build_isFor current hcur (hbound.built fun _ => Or.inr rfl)
  have hway := OnTheWay.changes h.toDescribes hprev hcur hbound
    (copiedChanges_nodup platform previous current shardCount shared)
    fun _ => lookup_of_mem_copiedChanges
  have hsame : ∀ key : RrsetKey, isDenialValidationType key.rrType = true → _ :=
    fun key => lookup_copiedChanges fun _ => mem_copiedChanges hprev hcur hcount hshared
  rw [copiedChanges, foldl_flatMap,
    foldl_ext _ _ _ fun state shard _ => foldl_shardChanges ..] at hway
  have hdescribes :=
    hway.describes.congr (keysMatch_between hway.between hprev hcur) hcur
    fun key htype => hsame key (by simp [isDenialValidationType, htype])
  dsimp only
  split
  · exact ⟨⟨hdescribes.nsec_get, hdescribes.nsec3_get, hdescribes.params⟩, rfl⟩
  next hflag =>
    refine ⟨hdescribes, hway.broken_eq.trans (h.broken_eq.trans ?_)⟩
    refine dnssecDenialChainBroken_congr hprev hcur fun key htype => ?_
    rw [← hway.unchanged (by simpa using hflag) key]
    exact hsame key htype

/-- The two list the same entries, count alike and give the same verdict. -/
structure SameIndexes (left right : DenialIndexes platform) : Prop where
  nsec : left.nsec.toList = right.nsec.toList
  nsecLen : left.nsec.len = right.nsec.len
  nsec3 : left.nsec3.toList = right.nsec3.toList
  nsec3Len : left.nsec3.len = right.nsec3.len
  params : ∀ entry, left.nsec3ParamCounts.lookup entry = right.nsec3ParamCounts.lookup entry
  broken : left.broken = right.broken

/-- Indexes for one map agree in everything that is read from them. -/
theorem IsFor.agree {left right : DenialIndexes platform} {rrsets others : RrsetMap}
    (hleft : left.IsFor rrsets origin) (hright : right.IsFor others origin)
    (hkeys : KeysMatch rrsets) (hothers : KeysMatch others)
    (hsame : ∀ key, rrsets.lookup key = others.lookup key) : left.SameIndexes right := by
  have hnsec : ∀ place, left.nsec.get place = right.nsec.get place := by
    intro place
    refine Option.ext fun key => ?_
    simp [hleft.nsec_get, hright.nsec_get, hsame]
  have hnsec3 : ∀ place, left.nsec3.get place = right.nsec3.get place := by
    intro place
    refine Option.ext fun key => ?_
    simp [hleft.nsec3_get, hright.nsec3_get, hsame]
  refine ⟨OrderIndex.toList_congr hnsec, OrderIndex.len_congr hnsec, OrderIndex.toList_congr hnsec3,
    OrderIndex.len_congr hnsec3, fun entry => ?_, ?_⟩
  · rw [hleft.params entry, hright.params entry]
    exact congrArg AList.stored (total_congr hsame _)
  · rw [hleft.broken_eq, hright.broken_eq]
    exact dnssecDenialChainBroken_congr hkeys hothers fun key _ => hsame key

end Updated

end DenialIndexes

end BoronDns
