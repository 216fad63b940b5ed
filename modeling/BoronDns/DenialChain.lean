import BoronDns.Ancestors
import BoronDns.DenialRanges
import BoronDns.Lib.StableSort

/-!
The chain check of a snapshot. The NSEC records of a class, and the NSEC3
records of a class and one set of hash parameters, are sorted by owner, and each
must name the next owner as its successor. The verdict reads only the NSEC, NSEC3
and NSEC3PARAM RRsets, and it does not depend on the order in which they are
stored.
-/

namespace BoronDns

open StableSort ZoneImageBuilder List RecordType

namespace DenialIndexes

/-- The order of the snapshot compares labels from the right, and of two labels
the shorter one comes first. -/
def canonicalOrderKey (name : DomainName) : List UInt8 :=
  (name.labels.reverse.flatMap fun label => UInt8.ofNat label.length :: lowerLabel label) ++ [0]

theorem canonicalOrderKey_eq (name : DomainName) :
    canonicalOrderKey name = reverseKey name.lowerLabels.reverse ++ [0] := by
  simp [canonicalOrderKey, reverseKey, reverseKeyLabel, DomainName.lowerLabels, ← map_reverse,
    flatMap_map]

theorem canonicalOrderKey_inj {left right : DomainName}
    (h : canonicalOrderKey left = canonicalOrderKey right) :
    left.canonicalKey = right.canonicalKey := by
  rw [canonicalOrderKey_eq, canonicalOrderKey_eq, append_cancel_right_eq] at h
  rw [DomainName.canonicalKey_inj]
  exact reverse_injective
    ((reverseKey_inj _ _ left.reversed_length_le right.reversed_length_le).mp h)

def nsec3OwnerHashLabel (owner origin : DomainName) : Option (List UInt8) :=
  (stripSuffix owner.canonicalKey origin.canonicalKey).bind fun front =>
    (stripSuffix front [46]).filter fun hashLabel => !hashLabel.isEmpty && !hashLabel.contains 46

theorem nsec3OwnerHashLabel_inj {left right origin : DomainName} {hashLabel : List UInt8}
    (hleft : nsec3OwnerHashLabel left origin = some hashLabel)
    (hright : nsec3OwnerHashLabel right origin = some hashLabel) :
    left.canonicalKey = right.canonicalKey := by
  have hkey : ∀ owner, nsec3OwnerHashLabel owner origin = some hashLabel →
      owner.canonicalKey = hashLabel ++ [46] ++ origin.canonicalKey := by
    intro owner h
    obtain ⟨front, hfront, hhash⟩ := Option.bind_eq_some_iff.mp h
    rw [stripSuffix_eq_some_iff.mp hfront,
      stripSuffix_eq_some_iff.mp (Option.filter_eq_some_iff.mp hhash).1]
  rw [hkey left hleft, hkey right hright]

def base32hexDigit (value : ℕ) : UInt8 :=
  if value < 10 then UInt8.ofNat (48 + value) else UInt8.ofNat (87 + value)

/-- The characters for the pending bits, five at a time, and how many bits are
left. -/
def base32hexEmit (buffer : ℕ) : ℕ → List UInt8 × ℕ
  | bits + 5 =>
    let later := base32hexEmit buffer bits
    (base32hexDigit (buffer / 2 ^ bits % 32) :: later.1, later.2)
  | bits => ([], bits)

def base32hexLoop : List UInt8 → ℕ → ℕ → List UInt8
  | [], buffer, bits => if 0 < bits then [base32hexDigit (buffer * 2 ^ (5 - bits) % 32)] else []
  | byte :: rest, buffer, bits =>
    let next := (buffer * 256 + byte.toNat) % 2 ^ 16
    let emitted := base32hexEmit next (bits + 8)
    emitted.1 ++ base32hexLoop rest next emitted.2

def base32hexNoPaddingLower (bytes : List UInt8) : List UInt8 := base32hexLoop bytes 0 0

def nsec3NextHashLabel (rdata : Rdata) : Option (List UInt8) :=
  (nsec3NextHashAndBitmap rdata).map fun parts => base32hexNoPaddingLower parts.1

/-- A record of a chain: its place and the places it names as next. -/
abbrev ChainEntry := List ℕ × List (List ℕ)

/-- Some record of the sorted chain does not name the one after it. -/
def chainBroken (entries : List ChainEntry) : Bool :=
  let sorted := sortByKey Prod.fst entries
  (sorted.zip (sorted.rotate 1)).any fun pair => !pair.1.2.contains pair.2.1

def nsecEntry (rrset : Rrset) : ChainEntry :=
  (octets (canonicalOrderKey rrset.owner), rrset.rdatas.filterMap fun rdata =>
    match DomainName.parse rdata 0 with
    | .ok parsed => some (octets (canonicalOrderKey parsed.1))
    | .error _ => none)

variable (rrsets : List Rrset)

def nsecGroup (cls : UInt16) : List ChainEntry :=
  (rrsets.filter fun rrset => rrset.rrType = nsec ∧ rrset.cls = cls).map nsecEntry

/-- The records of an NSEC3 RRset with the given hash parameters. -/
def nsec3Entries (origin : DomainName) (params : Nsec3Params) (rrset : Rrset) : List ChainEntry :=
  (rrset.rdatas.filter fun rdata => nsec3ParamsFromRdata rdata = some params).map fun rdata =>
    (octets ((nsec3OwnerHashLabel rrset.owner origin).getD []),
      [octets ((nsec3NextHashLabel rdata).getD [])])

def nsec3Group (origin : DomainName) (rrsets : List Rrset) (cls : UInt16) (params : Nsec3Params) :
    List ChainEntry :=
  (rrsets.filter fun rrset => rrset.rrType = nsec3 ∧ rrset.cls = cls).flatMap
    (nsec3Entries origin params)

variable (rrType : UInt16)

/-- The classes and parameters of the records of one type. -/
def paramsOfType (read : Rdata → Option Nsec3Params) (rrsets : List Rrset) :
    List (UInt16 × Nsec3Params) :=
  (rrsets.filter fun rrset => rrset.rrType = rrType).flatMap fun rrset =>
    (rrset.rdatas.filterMap read).map fun params => (rrset.cls, params)

/-- An NSEC3 or NSEC3PARAM RRset the check cannot read. -/
def unreadable (origin : DomainName) (rrset : Rrset) : Bool :=
  if rrset.rrType = nsec3 then
    (nsec3OwnerHashLabel rrset.owner origin).isNone ||
      rrset.rdatas.any fun rdata => (nsec3ParamsFromRdata rdata).isNone ||
      (nsec3NextHashLabel rdata).isNone
  else if rrset.rrType = nsec3Param then
    rrset.rdatas.any fun rdata => (nsec3paramParamsFromRdata rdata).isNone
  else
    false

/-- `dnssec_denial_chain_broken`: the first unreadable record ends the collection,
and then every group is checked. -/
def dnssecDenialChainBroken (origin : DomainName) : Bool :=
  let nsec3Params := paramsOfType nsec3 nsec3ParamsFromRdata rrsets
  rrsets.any (unreadable origin) ||
    (rrsets.any fun rrset => rrset.rrType = nsec ∧ chainBroken (nsecGroup rrsets rrset.cls)) ||
    (nsec3Params.any fun group => chainBroken (nsec3Group origin rrsets group.1 group.2)) ||
    (paramsOfType nsec3Param nsec3paramParamsFromRdata rrsets).any fun group =>
    !nsec3Params.contains group

def isDenialRrType : Bool :=
  rrType == nsec || rrType == nsec3

def isDenialValidationType : Bool :=
  isDenialRrType rrType || rrType == nsec3Param

section Order

variable {origin : DomainName} {left right : List Rrset}

theorem chainBroken_congr {entries others : List ChainEntry}
    (h : SameByKey Prod.fst entries others) : chainBroken entries = chainBroken others := by
  rw [chainBroken, chainBroken, sortByKey_congr h]

theorem octets_inj {left right : List UInt8} (h : octets left = octets right) : left = right :=
  map_injective_iff.mpr (fun _ _ hbyte => UInt8.toNat_inj.mp hbyte) h

/-- RRsets of one type and class have different owners. -/
theorem owners_distinct (hdist : left.Pairwise fun a b => a.key ≠ b.key) (rrType cls : UInt16) :
    (left.filter fun rrset => rrset.rrType = rrType ∧ rrset.cls = cls).Pairwise
      fun a b => a.owner.canonicalKey ≠ b.owner.canonicalKey := by
  refine (hdist.filter _).imp_of_mem fun {a b} ha hb hne hkey => hne ?_
  simp only [mem_filter, decide_eq_true_eq] at ha hb
  rw [Rrset.key, Rrset.key, hkey, ha.2.1, ha.2.2, hb.2.1, hb.2.2]

theorem chainBroken_nsecGroup_perm (hperm : left.Perm right)
    (hdist : left.Pairwise fun a b => a.key ≠ b.key)
    (cls : UInt16) : chainBroken (nsecGroup left cls) = chainBroken (nsecGroup right cls) := by
  rw [nsecGroup, nsecGroup, map_eq_flatMap, map_eq_flatMap]
  refine chainBroken_congr (sameByKey_flatMap (fun rrset => (nsecEntry rrset).1)
    (hperm.filter _) ?_ ?_)
  · intro rrset _ entry hentry
    rw [mem_singleton.mp hentry]
  · refine (owners_distinct hdist nsec cls).imp fun {a b} hne hplace => hne ?_
    exact canonicalOrderKey_inj (octets_inj hplace)

theorem chainBroken_nsec3Group_perm (hperm : left.Perm right)
    (hdist : left.Pairwise fun a b => a.key ≠ b.key)
    (hreadable : ∀ rrset ∈ left, unreadable origin rrset = false) (cls : UInt16)
    (params : Nsec3Params) :
    chainBroken (nsec3Group origin left cls params) = chainBroken
      (nsec3Group origin right cls params) := by
  refine chainBroken_congr (sameByKey_flatMap
    (fun rrset => octets ((nsec3OwnerHashLabel rrset.owner origin).getD [])) (hperm.filter _) ?_ ?_)
  · intro rrset _ entry hentry
    obtain ⟨rdata, -, rfl⟩ := mem_map.mp hentry
    rfl
  · have hlabel : ∀ rrset ∈ left.filter fun rrset => rrset.rrType = nsec3 ∧ rrset.cls = cls,
        ∃ hashLabel, nsec3OwnerHashLabel rrset.owner origin = some hashLabel := by
      intro rrset hrrset
      simp only [mem_filter, decide_eq_true_eq] at hrrset
      have hread := hreadable rrset hrrset.1
      rw [unreadable, if_pos hrrset.2.1, Bool.or_eq_false_iff] at hread
      exact Option.isSome_iff_exists.mp (by simpa using hread.1)
    refine (owners_distinct hdist nsec3 cls).imp_of_mem fun {a b} ha hb hne hplace => hne ?_
    obtain ⟨aLabel, haLabel⟩ := hlabel a ha
    obtain ⟨bLabel, hbLabel⟩ := hlabel b hb
    rw [haLabel, hbLabel, Option.getD_some, Option.getD_some] at hplace
    obtain rfl := octets_inj hplace
    exact nsec3OwnerHashLabel_inj haLabel hbLabel

theorem paramsOfType_perm (hperm : left.Perm right) (rrType : UInt16)
    (read : Rdata → Option Nsec3Params) :
    (paramsOfType rrType read left).Perm (paramsOfType rrType read right) :=
  (hperm.filter _).flatMap_right _

theorem any_congr_perm {α : Type*} {left right : List α} (hperm : left.Perm right) {p q : α → Bool}
    (h : ∀ a ∈ left, p a = q a) : left.any p = right.any q := by
  rw [Bool.eq_iff_iff, any_eq_true, any_eq_true]
  constructor
  · rintro ⟨a, ha, hp⟩
    exact ⟨a, hperm.mem_iff.mp ha, h a ha ▸ hp⟩
  · rintro ⟨a, ha, hq⟩
    have hleft := hperm.mem_iff.mpr ha
    exact ⟨a, hleft, (h a hleft).symm ▸ hq⟩

/-- The verdict does not depend on the order of the RRsets. -/
theorem dnssecDenialChainBroken_perm (hperm : left.Perm right)
    (hdist : left.Pairwise fun a b => a.key ≠ b.key) :
    dnssecDenialChainBroken left origin = dnssecDenialChainBroken right origin := by
  have hunreadable : left.any (unreadable origin) = right.any (unreadable origin) :=
    any_congr_perm hperm fun _ _ => rfl
  cases hread : left.any (unreadable origin) with
  | true =>
    rw [dnssecDenialChainBroken, dnssecDenialChainBroken, ← hunreadable, hread]
    rfl
  | false =>
    have hreadable : ∀ rrset ∈ left, unreadable origin rrset = false := by
      simpa [any_eq_false] using hread
    have hparams := paramsOfType_perm hperm nsec3 nsec3ParamsFromRdata
    simp only [dnssecDenialChainBroken]
    congr 1
    · congr 1
      · congr 1
        refine any_congr_perm hperm fun rrset _ => ?_
        rw [chainBroken_nsecGroup_perm hperm hdist]
      · refine any_congr_perm hparams fun group _ => ?_
        exact chainBroken_nsec3Group_perm hperm hdist hreadable _ _
    · refine any_congr_perm (paramsOfType_perm hperm _ _) fun group _ => ?_
      simp [hparams.mem_iff]

end Order

theorem any_filter_of_imp {α : Type*} {l : List α} {p q : α → Bool}
    (h : ∀ a, q a = true → p a = true) : (l.filter p).any q = l.any q := by
  rw [Bool.eq_iff_iff, any_eq_true, any_eq_true]
  constructor
  · rintro ⟨a, ha, hq⟩
    exact ⟨a, (mem_filter.mp ha).1, hq⟩
  · rintro ⟨a, ha, hq⟩
    exact ⟨a, mem_filter.mpr ⟨ha, h a hq⟩, hq⟩

theorem filter_filter_of_imp {α : Type*} (l : List α) {p q : α → Bool}
    (h : ∀ a, q a = true → p a = true) : (l.filter p).filter q = l.filter q := by
  rw [filter_filter]
  refine filter_congr fun a _ => ?_
  cases hq : q a with
  | true => simp [h a hq]
  | false => rfl

/-- Only the denial and parameter RRsets are read. -/
theorem dnssecDenialChainBroken_filter (origin : DomainName) :
    dnssecDenialChainBroken
      (rrsets.filter fun rrset => isDenialValidationType rrset.rrType) origin =
      dnssecDenialChainBroken rrsets origin := by
  have hnsec : ∀ cls,
      nsecGroup (rrsets.filter fun rrset => isDenialValidationType rrset.rrType) cls =
      nsecGroup rrsets cls := by
    intro cls
    rw [nsecGroup, filter_filter_of_imp, nsecGroup]
    intro rrset h
    simp [isDenialValidationType, isDenialRrType, (decide_eq_true_eq.mp h).1]
  have hnsec3 : ∀ cls params,
      nsec3Group origin (rrsets.filter fun rrset =>
      isDenialValidationType rrset.rrType) cls params =
        nsec3Group origin rrsets cls params := by
    intro cls params
    rw [nsec3Group, filter_filter_of_imp, nsec3Group]
    intro rrset h
    simp [isDenialValidationType, isDenialRrType, (decide_eq_true_eq.mp h).1]
  have hparams : ∀ rrType read, isDenialValidationType rrType = true →
      paramsOfType rrType read (rrsets.filter fun rrset => isDenialValidationType rrset.rrType) =
        paramsOfType rrType read rrsets := by
    intro rrType read htype
    rw [paramsOfType, filter_filter_of_imp, paramsOfType]
    intro rrset h
    rw [decide_eq_true_eq.mp h, htype]
  simp only [dnssecDenialChainBroken]
  rw [hparams _ _ (by decide), hparams _ _ (by decide), any_filter_of_imp, any_filter_of_imp]
  · simp [hnsec, hnsec3]
  · intro rrset h
    simp [isDenialValidationType, isDenialRrType, (decide_eq_true_eq.mp h).1]
  · intro rrset h
    unfold unreadable at h
    split at h
    · simp [isDenialValidationType, isDenialRrType, *]
    · split at h
      · simp [isDenialValidationType, *]
      · exact absurd h (by decide)

end DenialIndexes

end BoronDns
