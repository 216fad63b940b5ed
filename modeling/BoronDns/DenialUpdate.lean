import BoronDns.HashLabels
import BoronDns.SnapshotRebuild

/-!
The denial indexes of a store and of the store its replacements make: updated shard by shard
by the RRsets that differ, they are those that would be built from the new store, unless a
counter has to count 2^32 NSEC3 records.
-/

namespace BoronDns

open List AList Bytes
open ZoneSnapshot (WellKeyed exampleCom keysMatch_putAll plainPlatform)

namespace DenialIndexes

variable {platform : Platform} {origin : DomainName} {shardCount : ℕ}
  {indexes : DenialIndexes platform} {previous rrsets : RrsetMap} {replacements : List Replacement}

/-- The update for replacements, which share the shards they do not go into. -/
def replaced (indexes : DenialIndexes platform) (previous : RrsetMap) (origin : DomainName)
    (shardCount : ℕ) (replacements : List Replacement) : DenialIndexes platform :=
  indexes.updated previous (previous.putAll replacements) origin shardCount shardCount
    (platform.sharesShard shardCount replacements)

theorem SameIndexes.isFor {other : DenialIndexes platform} (h : indexes.SameIndexes other)
    (hother : other.IsFor rrsets origin) : indexes.IsFor rrsets origin := by
  refine ⟨⟨fun place key => ?_, fun place key => ?_, fun entry => ?_⟩, ?_⟩
  · rw [OrderIndex.get_eq_some_iff, h.nsec, ← OrderIndex.get_eq_some_iff, hother.nsec_get]
  · rw [OrderIndex.get_eq_some_iff, h.nsec3, ← OrderIndex.get_eq_some_iff, hother.nsec3_get]
  · rw [h.params, hother.params]
  · rw [h.broken, hother.broken_eq]

/-- Indexes that are those built for a store are updated to those built for the next one, as
long as the counters can count the NSEC3 records of every set of parameters. -/
theorem replaced_sameIndexes_build (hcount : 0 < shardCount) (hkeys : KeysMatch previous)
    (hmatch : ∀ key rrset, (key, some rrset) ∈ replacements → rrset.key = key)
    (hfit : ParamsFit origin previous (previous.putAll replacements))
    (h : indexes.SameIndexes (build previous origin)) :
    (indexes.replaced previous origin shardCount replacements).SameIndexes
      (build (previous.putAll replacements) origin) := by
  have hcurrent := keysMatch_putAll hkeys hmatch
  have hbefore := h.isFor (build_isFor _ hkeys (hfit.built fun _ => Or.inl rfl))
  have hbuilt : (build (previous.putAll replacements) origin : DenialIndexes platform).IsFor _ _ :=
    build_isFor _ hcurrent (hfit.built fun _ => Or.inr rfl)
  exact (updated_isFor hbefore hkeys hcurrent hfit hcount (lookup_of_sharesShard _)).agree
    hbuilt hcurrent hcurrent fun _ => rfl

/-- The hash of a name of the chain. -/
def numberedHash (n : ℕ) : List UInt8 := be32 (UInt32.ofNat n) ++ List.replicate 16 0

def numberedOwner (n : ℕ) : DomainName :=
  ⟨base32hexNoPaddingLower (numberedHash n) :: exampleCom.labels, by
    have hlen : (numberedHash n).length = 20 := rfl
    simp [exampleCom, length_base32hexNoPaddingLower hlen]⟩

/-- The record of one of the names, which gives the hash of the next. -/
def numberedRrset (n : ℕ) : Rrset :=
  ⟨numberedOwner n, RecordType.nsec3, 1, 300, [[1, 0, 0, 0, 0, 20] ++ numberedHash (n + 1)]⟩

theorem hashLabel_numberedOwner (n : ℕ) : nsec3OwnerHashLabel (numberedOwner n) exampleCom =
    some (base32hexNoPaddingLower (numberedHash n)) :=
  nsec3OwnerHashLabel_of_isNsec3Owner (by decide) rfl
    ⟨_, _, rfl, rfl, lowerLabel_of_spells (base32hexNoPaddingLower_spells _)⟩

theorem key_numberedRrset_inj {m n : ℕ} (hm : m < 2 ^ 32) (hn : n < 2 ^ 32)
    (h : (numberedRrset m).key = (numberedRrset n).key) : m = n := by
  simp only [Rrset.key, numberedRrset, RrsetKey.mk.injEq, and_true] at h
  have hlabel := hashLabel_numberedOwner m
  rw [nsec3OwnerHashLabel, h, ← nsec3OwnerHashLabel, hashLabel_numberedOwner] at hlabel
  have hread : ∀ k, base32hexSha1NoPaddingDecodeLower (base32hexNoPaddingLower (numberedHash k)) =
      some (numberedHash k) := fun k => (base32hexSha1NoPaddingDecodeLower_eq_some_iff _ _).mpr
    ⟨rfl, Or.inl (lowerLabel_of_spells (base32hexNoPaddingLower_spells _))⟩
  have hhash : numberedHash n = numberedHash m :=
    Option.some.inj ((hread n).symm.trans (Option.some.inj hlabel ▸ hread m))
  have hnumber := congrArg UInt32.toNat (be32_inj (append_cancel_right hhash.symm))
  rwa [UInt32.toNat_ofNat_of_lt' hm, UInt32.toNat_ofNat_of_lt' hn] at hnumber

/-- Records of a chain from one number on. -/
def numberedStore (first number : ℕ) (h : first + number ≤ 2 ^ 32) : RrsetMap :=
  ⟨(range' first number).map fun n => ⟨(numberedRrset n).key, numberedRrset n⟩, by
    rw [NodupKeys, List.keys, map_map]
    refine Nodup.map_on (fun m hm n hn hsame => ?_) (nodup_range' ..)
    rw [mem_range'_1] at hm hn
    exact key_numberedRrset_inj (by omega) (by omega) hsame⟩

variable {first number : ℕ}

theorem keysMatch_numberedStore (h : first + number ≤ 2 ^ 32) :
    KeysMatch (numberedStore first number h) := by
  intro key rrset hlook
  obtain ⟨n, -, hentry⟩ := mem_map.mp (mem_lookup_iff.mp hlook)
  cases hentry
  rfl

/-- Of three records one is taken away and one gets a second one with other parameters. -/
theorem replaced_sameIndexes_build_chain :
    let store := numberedStore 0 3 (by decide)
    let changed : Rrset :=
      { numberedRrset 1 with rdatas := (numberedRrset 1).rdatas ++
        [[1, 0, 0, 7, 0, 20] ++ numberedHash 2] }
    let replacements := [((numberedRrset 0).key, none), (changed.key, some changed)]
    ((build store exampleCom : DenialIndexes plainPlatform).replaced store exampleCom 2
      replacements).SameIndexes (build (store.putAll replacements) exampleCom) := by
  refine replaced_sameIndexes_build Nat.two_pos (keysMatch_numberedStore _)
    (fun key rrset hmem => ?_) (paramsFit_of_recordTotal (by decide +kernel))
    ⟨rfl, rfl, rfl, rfl, fun _ => rfl, rfl⟩
  simp only [mem_cons, Prod.mk.injEq, reduceCtorEq, and_false, not_mem_nil, or_false, false_or,
    Option.some.injEq] at hmem
  rw [hmem.1, hmem.2]

def numberedParams : UInt16 × Nsec3Params := (1, ⟨1, 0, []⟩)

theorem chainKeys_numberedRrset (n : ℕ) :
    chainKeys exampleCom (numberedRrset n) = [numberedParams] := by
  rw [chainKeys, if_pos ⟨rfl, by rw [numberedRrset, hashLabel_numberedOwner]; rfl⟩]
  rfl

theorem lookup_insert_numberedRrset (indexes : DenialIndexes platform) (n : ℕ) :
    (indexes.insertRrset (numberedRrset n).key (numberedRrset n)
      exampleCom).nsec3ParamCounts.lookup numberedParams =
        some (((indexes.nsec3ParamCounts.lookup numberedParams).getD 0 + 1) % 2 ^ 32) := by
  rw [(writes_insertRrset ..).params, chainKeys_numberedRrset, foldl_cons, foldl_nil, countUp,
    lookup_insert]

/-- The counter holds the number of records only up to its width. -/
theorem lookup_build_numberedStore (h : first + (number + 1) ≤ 2 ^ 32) :
    (build (numberedStore first (number + 1) h) exampleCom :
      DenialIndexes platform).nsec3ParamCounts.lookup numberedParams =
        some ((number + 1) % 2 ^ 32) := by
  unfold build
  dsimp only [numberedStore]
  rw [foldl_map]
  clear h
  induction number with
  | zero =>
    rw [range'_succ, range'_zero, foldl_cons, foldl_nil, lookup_insert_numberedRrset]
    rfl
  | succ number ih =>
    rw [range'_concat, foldl_append, foldl_cons, foldl_nil, lookup_insert_numberedRrset, ih,
      Option.getD_some, Nat.mod_add_mod]

/-- The first record is taken away. -/
def firstRemoved : List Replacement := [((numberedRrset 0).key, none)]

theorem wellKeyed_firstRemoved : WellKeyed firstRemoved := by
  refine ⟨nodup_singleton _, fun key rrset hmem => ?_⟩
  exact absurd (Prod.mk.inj (mem_singleton.mp hmem)).2 (by simp)

theorem lookup_firstRemoved (previous : RrsetMap) (key : RrsetKey) :
    (previous.putAll firstRemoved).lookup key =
      if key = (numberedRrset 0).key then none else previous.lookup key :=
  previous.lookup_put _ none key

/-- A counter that has become zero goes with the first record that is taken away. -/
theorem lookup_replaced_firstRemoved (hcount : 0 < shardCount) (hkeys : KeysMatch previous)
    (hfirst : previous.lookup (numberedRrset 0).key = some (numberedRrset 0))
    (hzero : indexes.nsec3ParamCounts.lookup numberedParams = some 0) :
    (indexes.replaced previous exampleCom shardCount
      firstRemoved).nsec3ParamCounts.lookup numberedParams = none := by
  have hgone := (lookup_firstRemoved previous (numberedRrset 0).key).trans (if_pos rfl)
  have hmem := mem_copiedChanges hkeys (keysMatch_putAll hkeys wellKeyed_firstRemoved.matching)
    hcount (@lookup_of_sharesShard platform _ previous _) rfl (by rw [hfirst, hgone]; simp)
  unfold replaced updated
  rw [if_neg (by simp), ← foldl_ext _ _ _ fun state shard _ => foldl_shardChanges ..,
    ← foldl_flatMap, ← copiedChanges]
  -- every other key keeps its value, so the loop does one step
  rw [foldl_ext _ (fun state change => if (change == ((numberedRrset 0).key, none)) = true then
      changeRrset exampleCom state change (previous.lookup change.1) else state),
    ← foldl_filter, filter_beq, count_eq_one_of_mem (.of_map _ (copiedChanges_nodup ..))
      (hgone ▸ hmem), replicate_one, foldl_cons, foldl_nil, hfirst]
  · show ((indexes.removeRrset (numberedRrset 0) exampleCom).nsec3ParamCounts).lookup _ = _
    rw [(writes_removeRrset ..).params, chainKeys_numberedRrset, foldl_cons, foldl_nil, countDown,
      hzero]
    exact AList.lookup_erase ..
  · intro state change hchange
    have hnext := lookup_of_mem_copiedChanges hchange
    rw [lookup_firstRemoved] at hnext
    split at hnext
    next hkey => rw [if_pos (by simp [← hkey, hnext])]
    · rw [changeRrset, if_pos hnext.symm, ite_self]

/-- Of 2^32 records of one chain, the first is taken away. -/
theorem replaced_full_differs : ∃ store : RrsetMap, KeysMatch store ∧ WellKeyed firstRemoved ∧
    ∀ shardCount, 0 < shardCount →
      ¬ ((build store exampleCom : DenialIndexes plainPlatform).replaced store exampleCom
          shardCount firstRemoved).SameIndexes
        (build (store.putAll firstRemoved) exampleCom) := by
  obtain ⟨number, hfull⟩ : ∃ number, 0 + (number + 1 + 1) = 2 ^ 32 := ⟨2 ^ 32 - 2, rfl⟩
  have hkeys := keysMatch_numberedStore hfull.le
  refine ⟨_, hkeys, wellKeyed_firstRemoved, fun shardCount hcount hsame => ?_⟩
  have hfirst : (numberedStore 0 (number + 1 + 1) hfull.le).lookup (numberedRrset 0).key =
      some (numberedRrset 0) := mem_lookup_iff.mpr (mem_cons_self ..)
  have hrest : (numberedStore 0 (number + 1 + 1) hfull.le).putAll firstRemoved =
      numberedStore 1 (number + 1) (by omega) :=
    AList.ext (@kerase_cons_eq _ _ _ (numberedRrset 0).key ⟨_, numberedRrset 0⟩ _ rfl)
  have hparams := hsame.params numberedParams
  rw [lookup_replaced_firstRemoved hcount hkeys hfirst
    (by rw [lookup_build_numberedStore, ← Nat.zero_add (number + 1 + 1), hfull, Nat.mod_self]),
    hrest, lookup_build_numberedStore] at hparams
  cases hparams

end DenialIndexes

end BoronDns
