import BoronDns.Ancestors
import BoronDns.Lib.ShardedMap
import BoronDns.Lib.WordBitmap

/-!
A set of names that is asked for the suffixes of a name. The names are kept as
canonical keys in shards by their hash, behind a small bitmap that holds two
bits of every hash. The hash of a suffix is taken from its labels byte by byte,
as the key would be written, so it is the hash of the key, and the set answers
exactly for the names that were put into it.
-/

namespace BoronDns

open ShardedMap List

/-- The standard library's keyed hasher: a state, what it does to a byte string
and to a single byte, and the digest. -/
structure ByteHasher where
  State : Type
  start : State
  write : State → List UInt8 → State
  writeU8 : State → UInt8 → State
  finish : State → UInt64

namespace ByteHasher

/-- A byte string is hashed as its bytes one at a time. -/
def Bytewise (hasher : ByteHasher) : Prop :=
  ∀ state bytes, hasher.write state bytes = bytes.foldl hasher.writeU8 state

variable (hasher : ByteHasher)

def canonicalNameHash (ownerKey : NameKey) : UInt64 :=
  hasher.finish (hasher.write hasher.start ownerKey)

variable (state : hasher.State)

/-- The escape of a byte is hashed octet by octet. -/
def writeKeyByte (byte : UInt8) : hasher.State :=
  let byte := toAsciiLowercase byte
  if needsEscape byte then
    [92, 48 + byte / 100, 48 + byte / 10 % 10, 48 + byte % 10].foldl hasher.writeU8 state
  else
    hasher.writeU8 state byte

def writeKeyLabel (label : Label) : hasher.State :=
  hasher.writeU8 (label.foldl hasher.writeKeyByte state) 46

def canonicalDomainSuffixHash (name : DomainName) (suffixStart : ℕ) : UInt64 :=
  let state := (name.labels.drop suffixStart).foldl hasher.writeKeyLabel hasher.start
  let state := if suffixStart = name.labelCount then hasher.writeU8 state 46 else state
  hasher.finish state

end ByteHasher

def canonicalDomainSuffixKey (name : DomainName) (suffixStart : ℕ) : NameKey :=
  canonicalNameKeyFromLabels (name.labels.drop suffixStart)

/-- `digest as usize & (self.shards.len() - 1)`; the shard count is never
zero. -/
def nameSetShard (shardCount : ℕ) [NeZero shardCount] (digest : UInt64) : Fin shardCount :=
  ⟨digest.toNat &&& (shardCount - 1),
    lt_of_le_of_lt Nat.and_le_right (Nat.sub_lt (NeZero.pos shardCount) Nat.one_pos)⟩

structure ShardedNameSet (shardCount : ℕ) [NeZero shardCount] where
  shards : Shards (nameSetShard shardCount) (List NameKey)
  len : ℕ
  bloom : Fin 4 → UInt64

namespace ShardedNameSet

variable {shardCount : ℕ} [NeZero shardCount]

def new (shardCount : ℕ) [NeZero shardCount] : ShardedNameSet shardCount :=
  ⟨Shards.empty _ _, 0, fun _ => 0⟩

/-- The two bits of a digest in the bitmap, the second after
`rotate_left(29)`. -/
def bloomBits (digest : UInt64) : List ℕ :=
  [(digest &&& 255).toNat, ((digest <<< 29 ||| digest >>> 35) &&& 255).toNat]

variable (bloom : Fin 4 → UInt64)

def bloomInsert (digest : UInt64) : Fin 4 → UInt64 :=
  (bloomBits digest).foldl WordBitmap.set bloom

def bloomMayContain (digest : UInt64) : Bool :=
  (bloomBits digest).all fun bit => WordBitmap.test bloom bit

def insert (hasher : ByteHasher) (set : ShardedNameSet shardCount) (name : NameKey) :
    ShardedNameSet shardCount :=
  let digest := hasher.canonicalNameHash name
  let bloom := bloomInsert set.bloom digest
  let names := (set.shards.get digest).getD []
  if names.any fun existing => existing == name then
    { set with bloom }
  else
    { shards := set.shards.insert digest (names ++ [name]), len := set.len + 1, bloom }

def containsDomainSuffix (hasher : ByteHasher) (set : ShardedNameSet shardCount)
    (name : DomainName) (suffixStart : ℕ) : Bool :=
  let digest := hasher.canonicalDomainSuffixHash name suffixStart
  if !bloomMayContain set.bloom digest then
    false
  else
    match set.shards.get digest with
    | none => false
    | some candidates =>
      candidates.any fun candidate => candidate == canonicalDomainSuffixKey name suffixStart

end ShardedNameSet

namespace ByteHasher

variable {hasher : ByteHasher}

theorem foldl_writeKeyByte (label : Label) (state : hasher.State) :
    label.foldl hasher.writeKeyByte state =
      ((lowerLabel label).flatMap escapeByte).foldl hasher.writeU8 state := by
  induction label generalizing state with
  | nil => rfl
  | cons byte rest ih =>
    have hlower : lowerLabel (byte :: rest) = toAsciiLowercase byte :: lowerLabel rest := rfl
    rw [foldl_cons, ih, hlower, flatMap_cons, foldl_append]
    congr 1
    unfold writeKeyByte
    by_cases h : needsEscape (toAsciiLowercase byte) = true
    · rw [escapeByte_of_needsEscape h]
      simp [h]
    · rw [escapeByte_of_plain h]
      simp only [h, if_false, Bool.false_eq_true]
      rfl

theorem foldl_writeKeyLabel (labels : List Label) (state : hasher.State) :
    labels.foldl hasher.writeKeyLabel state =
      (labels.flatMap fun label => (lowerLabel label).flatMap escapeByte ++ [46]).foldl
        hasher.writeU8 state := by
  induction labels generalizing state with
  | nil => rfl
  | cons label rest ih =>
    rw [foldl_cons, ih, flatMap_cons, foldl_append, foldl_append, writeKeyLabel, foldl_writeKeyByte]
    rfl

theorem canonicalDomainSuffixHash_eq (hbytes : hasher.Bytewise) (name : DomainName)
    {suffixStart : ℕ} (hstart : suffixStart ≤ name.labelCount) :
    hasher.canonicalDomainSuffixHash name suffixStart =
      hasher.canonicalNameHash (canonicalDomainSuffixKey name suffixStart) := by
  unfold canonicalDomainSuffixHash canonicalNameHash canonicalDomainSuffixKey
    canonicalNameKeyFromLabels
  rw [hbytes, foldl_writeKeyLabel]
  by_cases hend : suffixStart = name.labelCount
  · have hdrop : name.labels.drop suffixStart = [] := by
      rw [drop_eq_nil_iff, hend]
      exact le_rfl
    simp only [hend, if_true]
    rw [← hend, hdrop]
    rfl
  · have hne : name.labels.drop suffixStart ≠ [] := by
      rw [ne_eq, drop_eq_nil_iff]
      have hcount : name.labelCount = name.labels.length := rfl
      omega
    obtain ⟨label, rest, hsplit⟩ := exists_cons_of_ne_nil hne
    simp [hend, hsplit]

end ByteHasher

namespace ShardedNameSet

variable {shardCount : ℕ} [NeZero shardCount] {hasher : ByteHasher}

theorem bloomBits_lt {digest : UInt64} {bit : ℕ} (h : bit ∈ bloomBits digest) : bit / 64 < 4 := by
  have hlow : ∀ word : UInt64, (word &&& 255).toNat ≤ 255 := by
    intro word
    exact Nat.and_le_right
  simp only [bloomBits, mem_cons, not_mem_nil, or_false] at h
  rcases h with rfl | rfl
  · have := hlow digest
    omega
  · have := hlow (digest <<< 29 ||| digest >>> 35)
    omega

/-- The set holds exactly the given keys: each under its own hash, and with its
bits in the bitmap. -/
structure Holds (hasher : ByteHasher) (set : ShardedNameSet shardCount) (keys : List NameKey) :
    Prop where
  stored : ∀ key, key ∈ (set.shards.get (hasher.canonicalNameHash key)).getD [] ↔ key ∈ keys
  marked : ∀ key ∈ keys, bloomMayContain set.bloom (hasher.canonicalNameHash key) = true

variable {set : ShardedNameSet shardCount} {keys : List NameKey}

theorem Holds.insert (h : Holds hasher set keys)
    (name : NameKey) : Holds hasher (set.insert hasher name) (name :: keys) := by
  have hbloom : (set.insert hasher name).bloom = bloomInsert set.bloom
      (hasher.canonicalNameHash name) := by
    simp only [ShardedNameSet.insert]
    split <;> rfl
  constructor
  · intro key
    rw [mem_cons, ← h.stored key]
    by_cases hknown : name ∈ (set.shards.get (hasher.canonicalNameHash name)).getD []
    · have hsame : (set.insert hasher name).shards = set.shards := by
        simp [ShardedNameSet.insert, hknown]
      rw [hsame]
      constructor
      · exact Or.inr
      · rintro (rfl | hkey)
        · exact hknown
        · exact hkey
    · have hadded : (set.insert hasher name).shards = set.shards.insert
          (hasher.canonicalNameHash name)
          ((set.shards.get (hasher.canonicalNameHash name)).getD [] ++ [name]) := by
        simp [ShardedNameSet.insert, hknown]
      rw [hadded, Shards.get_insert]
      by_cases hdigest : hasher.canonicalNameHash key = hasher.canonicalNameHash name
      · simp only [hdigest, if_true, Option.getD_some, mem_append, mem_singleton]
        exact or_comm
      · simp only [hdigest, if_false]
        constructor
        · exact Or.inr
        · rintro (rfl | hkey)
          · exact absurd rfl hdigest
          · exact hkey
  · intro key hkey
    rw [hbloom]
    rcases mem_cons.mp hkey with rfl | hkey
    · rw [bloomMayContain, all_eq_true]
      exact fun bit hbit => WordBitmap.test_foldl_set_of_mem _ (fun b hb => bloomBits_lt hb) hbit
    · have hmarked := h.marked key hkey
      rw [bloomMayContain, all_eq_true] at hmarked ⊢
      exact fun bit hbit => WordBitmap.test_foldl_set_of_test _ _ (hmarked bit hbit)

theorem holds_foldl_insert (hasher : ByteHasher) (inserted : List NameKey) :
    Holds hasher
      (inserted.foldl (ShardedNameSet.insert hasher) (new shardCount)) inserted.reverse := by
  refine List.reverseRecOn inserted ⟨fun key => by simp [new], by simp⟩ ?_
  intro earlier last ih
  rw [foldl_append, reverse_append]
  exact ih.insert last

/-- The bitmap never hides a name, and what it lets through by accident is
caught by the comparison of the keys. -/
theorem Holds.containsDomainSuffix_iff (h : Holds hasher set keys) (hbytes : hasher.Bytewise)
    (name : DomainName) {suffixStart : ℕ} (hstart : suffixStart ≤ name.labelCount) :
    set.containsDomainSuffix hasher name suffixStart = true ↔
      canonicalDomainSuffixKey name suffixStart ∈ keys := by
  unfold containsDomainSuffix
  rw [ByteHasher.canonicalDomainSuffixHash_eq hbytes name hstart]
  have hstored := h.stored (canonicalDomainSuffixKey name suffixStart)
  cases hbloom : bloomMayContain set.bloom
      (hasher.canonicalNameHash (canonicalDomainSuffixKey name suffixStart)) with
  | false =>
    have habsent : canonicalDomainSuffixKey name suffixStart ∉ keys := by
      intro hmem
      rw [h.marked _ hmem] at hbloom
      exact Bool.noConfusion hbloom
    simp [hbloom, habsent]
  | true =>
    cases hget : set.shards.get
        (hasher.canonicalNameHash (canonicalDomainSuffixKey name suffixStart)) with
    | none => simpa [hbloom, hget] using hstored
    | some candidates => simpa [hbloom, hget] using hstored

end ShardedNameSet

/-- The name made of the labels of a name from a position on. -/
def DomainName.suffix (name : DomainName) (suffixStart : ℕ) : DomainName :=
  ⟨name.labels.drop suffixStart, fun label h => name.labels_valid label (mem_of_mem_drop h)⟩

/-- What the server relies on when it keys its maps by the canonical text of a
name: the key determines the name up to case, the textual parent is the parent
below the top level, and a set asked for a suffix answers for exactly the names
put into it. -/
structure FaithfulKeys (hasher : ByteHasher) : Prop where
  key_inj : ∀ left right : DomainName, left.canonicalKey = right.canonicalKey ↔
    left.lowerLabels = right.lowerLabels
  key_parent : ∀ name above : DomainName, name.parent = some above → above ≠ DomainName.root →
    parentNameKey name.canonicalKey = some above.canonicalKey
  suffix_key : ∀ (name : DomainName) (suffixStart : ℕ), suffixStart ≤ name.labelCount →
    canonicalDomainSuffixKey name suffixStart = (name.suffix suffixStart).canonicalKey
  suffix_hash : ∀ (name : DomainName) (suffixStart : ℕ), suffixStart ≤ name.labelCount →
    hasher.canonicalDomainSuffixHash name suffixStart =
      hasher.canonicalNameHash (name.suffix suffixStart).canonicalKey
  contains_iff : ∀ (shardCount : ℕ) [NeZero shardCount] (inserted : List DomainName)
    (name : DomainName) (suffixStart : ℕ), suffixStart ≤ name.labelCount →
    (((inserted.map DomainName.canonicalKey).foldl (ShardedNameSet.insert hasher)
        (ShardedNameSet.new shardCount)).containsDomainSuffix hasher name suffixStart = true ↔
      ∃ member ∈ inserted, member.lowerLabels = (name.suffix suffixStart).lowerLabels)

theorem faithfulKeys_of_bytewise (hasher : ByteHasher) (hbytes : hasher.Bytewise) :
    FaithfulKeys hasher where
  key_inj := DomainName.canonicalKey_inj
  key_parent name above habove hroot := by
    obtain ⟨labels, valid⟩ := name
    cases labels with
    | nil => exact absurd habove (by simp [DomainName.parent])
    | cons label rest =>
      obtain rfl := Option.some.inj habove
      exact (parentNameKey_cons label rest).trans (if_neg fun h => hroot (DomainName.ext h))
  suffix_key _ _ _ := rfl
  suffix_hash name suffixStart hstart := ByteHasher.canonicalDomainSuffixHash_eq hbytes name hstart
  contains_iff shardCount _ inserted name suffixStart hstart := by
    have hkey : canonicalDomainSuffixKey name suffixStart =
        (name.suffix suffixStart).canonicalKey := rfl
    rw [(ShardedNameSet.holds_foldl_insert hasher _).containsDomainSuffix_iff hbytes name hstart,
      mem_reverse, mem_map, hkey]
    simp [DomainName.canonicalKey_inj]

/-- A hasher that sums the bytes it is given. -/
def ByteHasher.summing : ByteHasher where
  State := UInt64
  start := 0
  write state bytes := bytes.foldl (fun sum byte => sum * 31 + byte.toUInt64) state
  writeU8 state byte := state * 31 + byte.toUInt64
  finish state := state

theorem faithfulKeys_summing : ByteHasher.summing.Bytewise ∧ FaithfulKeys ByteHasher.summing :=
  ⟨fun _ _ => rfl, faithfulKeys_of_bytewise ByteHasher.summing fun _ _ => rfl⟩

end BoronDns
