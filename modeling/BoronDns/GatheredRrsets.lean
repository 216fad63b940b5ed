import BoronDns.SnapshotInvariant
import BoronDns.ZoneRecordSet

/-!
What gathering records gives. A zone version is a finite set of records, told
apart by their identity. Gathering a list of records gives one RRset for every
key among them; its time to live is the lowest of the version's records with that
key, and its data are, up to the case of names, theirs.
-/

namespace BoronDns

open List
open RecordKey (fromRecord)

theorem min_ttl_spec (left right : UInt32) :
    min left right ≤ left ∧ min left right ≤ right ∧
      (min left right = left ∨ min left right = right) := by
  have hmin : min left right = if left ≤ right then left else right := rfl
  grind

/-- The records of a zone, each told by its identity. -/
abbrev ZoneVersion := Finset RecordKey

def versionOf (records : List ResourceRecord) : ZoneVersion := (records.map fromRecord).toFinset

theorem mem_versionOf {records : List ResourceRecord} {key : RecordKey} :
    key ∈ versionOf records ↔ ∃ record ∈ records, fromRecord record = key := by
  simp [versionOf]

/-- The RRset holds the records of the version that have its key. -/
structure Holds (version : ZoneVersion) (rrset : Rrset) : Prop where
  owner : rrset.owner.toAsciiLowercased = rrset.owner
  ttl_le : ∀ key ∈ version, key.rrsetKey = rrset.key → rrset.ttl ≤ key.ttl
  ttl_mem : ∃ key ∈ version, key.rrsetKey = rrset.key ∧ key.ttl = rrset.ttl
  rdatas : ∀ rdata, rdata ∈ rrset.rdatas.map (canonicalRdataIdentity rrset.rrType) ↔
    ∃ key ∈ version, key.rrsetKey = rrset.key ∧ key.rdata = rdata
  distinct : (rrset.rdatas.map (canonicalRdataIdentity rrset.rrType)).Nodup

/-- What is stored under a key for a version: the RRset that holds its records, or nothing. -/
def Stores (version : ZoneVersion) (key : RrsetKey) : Option Rrset → Prop
  | none => ∀ record ∈ version, record.rrsetKey ≠ key
  | some rrset => rrset.key = key ∧ Holds version rrset

/-- Two RRsets that hold the same records differ at most in the order of the data and the
case of names in them. -/
structure SameRrset (left right : Rrset) : Prop where
  owner : left.owner = right.owner
  rrType : left.rrType = right.rrType
  cls : left.cls = right.cls
  ttl : left.ttl = right.ttl
  rdatas : ∀ rdata, rdata ∈ left.rdatas.map (canonicalRdataIdentity left.rrType) ↔
    rdata ∈ right.rdatas.map (canonicalRdataIdentity right.rrType)

variable {version : ZoneVersion}

theorem Holds.same {left right : Rrset} (hleft : Holds version left)
    (hright : Holds version right) (hkey : left.key = right.key) : SameRrset left right := by
  have hown : left.owner.canonicalKey = right.owner.canonicalKey := congrArg RrsetKey.owner hkey
  constructor
  · rw [← hleft.owner, ← hright.owner, DomainName.toAsciiLowercased_eq_iff, hown]
  · exact congrArg RrsetKey.rrType hkey
  · exact congrArg RrsetKey.cls hkey
  · obtain ⟨low, hlow, hlowKey, hlowTtl⟩ := hleft.ttl_mem
    obtain ⟨other, hother, hotherKey, hotherTtl⟩ := hright.ttl_mem
    refine UInt32.le_antisymm ?_ ?_
    · rw [← hotherTtl]
      exact hleft.ttl_le other hother (hotherKey.trans hkey.symm)
    · rw [← hlowTtl]
      exact hright.ttl_le low hlow (hlowKey.trans hkey)
  · intro rdata
    rw [hleft.rdatas, hright.rdatas, hkey]

theorem Stores.same {key : RrsetKey} {left right : Option Rrset}
    (hleft : Stores version key left) (hright : Stores version key right) :
    Option.Rel SameRrset left right := by
  cases left with
  | none =>
    cases right with
    | none => exact .none
    | some rrset =>
      obtain ⟨hkey, hholds⟩ := hright
      obtain ⟨record, hrec, hrecordKey, -⟩ := hholds.ttl_mem
      exact absurd (hrecordKey.trans hkey) (hleft record hrec)
  | some rrset =>
    obtain ⟨hkey, hholds⟩ := hleft
    cases right with
    | none =>
      obtain ⟨record, hrec, hrecordKey, -⟩ := hholds.ttl_mem
      exact absurd (hrecordKey.trans hkey) (hright record hrec)
    | some other => exact .some (hholds.same hright.2 (hkey.trans hright.1.symm))

section Gathering

variable {version other : ZoneVersion} {rrset : Rrset} {record : ResourceRecord}
  (records : List ResourceRecord)

theorem versionOf_append (last : ResourceRecord) :
    versionOf (records ++ [last]) = insert (fromRecord last) (versionOf records) := by
  ext key
  simp [mem_versionOf, or_comm, eq_comm]

/-- Only the records with its key matter to an RRset. -/
theorem Holds.congr (h : Holds version rrset)
    (hsame : ∀ record : RecordKey, record.rrsetKey = rrset.key →
      (record ∈ version ↔ record ∈ other)) :
    Holds other rrset := by
  have hexists : ∀ p : RecordKey → Prop, (∃ key ∈ version, key.rrsetKey = rrset.key ∧ p key) ↔
      ∃ key ∈ other, key.rrsetKey = rrset.key ∧ p key := by
    intro p
    constructor
    · rintro ⟨key, hmem, hkey, hp⟩
      exact ⟨key, (hsame key hkey).mp hmem, hkey, hp⟩
    · rintro ⟨key, hmem, hkey, hp⟩
      exact ⟨key, (hsame key hkey).mpr hmem, hkey, hp⟩
  exact ⟨h.owner, fun key hmem hkey => h.ttl_le key ((hsame key hkey).mpr hmem) hkey,
    (hexists _).mp h.ttl_mem, fun rdata => (h.rdatas rdata).trans (hexists _), h.distinct⟩

def singleRrset (record : ResourceRecord) : Rrset :=
  ⟨record.owner, record.rrType, record.cls, record.ttl, [record.rdata]⟩

theorem holds_singleRrset (hnew : ∀ key ∈ version, key.rrsetKey ≠ rrsetIdentity record) :
    Holds (insert (fromRecord record) version) (singleRrset (normalizeRecordOwner record)) := by
  have hkey : (singleRrset (normalizeRecordOwner record)).key = rrsetIdentity record :=
    rrsetIdentity_normalizeRecordOwner record
  constructor
  · exact DomainName.toAsciiLowercased_idem record.owner
  · rw [hkey, Finset.forall_mem_insert]
    exact ⟨fun _ => UInt32.le_refl _, fun key hmem hid => absurd hid (hnew key hmem)⟩
  · exact ⟨_, Finset.mem_insert_self .., (rrsetKey_fromRecord record).trans hkey.symm, rfl⟩
  · intro rdata
    rw [hkey, Finset.exists_mem_insert, or_iff_left fun ⟨key, hmem, hid, _⟩ =>
      hnew key hmem hid, rrsetKey_fromRecord, eq_self, true_and, eq_comm]
    exact mem_singleton
  · exact nodup_singleton _

theorem map_rdatas_mergeRecord (htype : record.rrType = rrset.rrType) :
    (mergeRecord rrset record).rdatas.map (canonicalRdataIdentity rrset.rrType) =
      if canonicalRdataIdentity rrset.rrType record.rdata ∈ rrset.rdatas.map
        (canonicalRdataIdentity rrset.rrType) then
        rrset.rdatas.map (canonicalRdataIdentity rrset.rrType)
      else rrset.rdatas.map (canonicalRdataIdentity rrset.rrType) ++
        [canonicalRdataIdentity rrset.rrType record.rdata] := by
  simp only [mergeRecord, htype, any_eq_true, decide_eq_true_eq, mem_map]
  split <;> simp

theorem Holds.merge (h : Holds version rrset) (hsame : rrsetIdentity record = rrset.key) :
    Holds (insert (fromRecord record) version) (mergeRecord rrset record) := by
  have htype : record.rrType = rrset.rrType := congrArg RrsetKey.rrType hsame
  have hnewKey : (fromRecord record).rrsetKey = rrset.key :=
    (rrsetKey_fromRecord record).trans hsame
  have hnewRdata : (fromRecord record).rdata = canonicalRdataIdentity rrset.rrType record.rdata :=
    congrArg (canonicalRdataIdentity · record.rdata) htype
  have hrdatas := map_rdatas_mergeRecord htype
  obtain ⟨hleft, hright, hmin⟩ := min_ttl_spec rrset.ttl record.ttl
  constructor
  · exact h.owner
  · rw [Finset.forall_mem_insert]
    exact ⟨fun _ => hright, fun key hmem hkey => UInt32.le_trans hleft (h.ttl_le key hmem hkey)⟩
  · rw [Finset.exists_mem_insert]
    rcases hmin with hmin | hmin
    · obtain ⟨key, hmem, hkey, httl⟩ := h.ttl_mem
      exact .inr ⟨key, hmem, hkey, httl.trans hmin.symm⟩
    · exact .inl ⟨hnewKey, hmin.symm⟩
  · intro rdata
    rw [Finset.exists_mem_insert]
    refine Iff.trans ?_ (or_congr ⟨fun heq => ⟨hnewKey, hnewRdata.trans heq⟩,
      fun h => hnewRdata.symm.trans h.2⟩ (h.rdatas rdata))
    show rdata ∈ (mergeRecord rrset record).rdatas.map (canonicalRdataIdentity rrset.rrType) ↔ _
    rw [hrdatas]
    split <;> grind
  · show ((mergeRecord rrset record).rdatas.map (canonicalRdataIdentity rrset.rrType)).Nodup
    rw [hrdatas]
    split
    · exact h.distinct
    next hunknown => exact h.distinct.append (nodup_singleton _) (disjoint_singleton.mpr hunknown)

/-- The RRsets hold the records of the list, one RRset for each key, with the data of records of the
list. -/
structure Gathered (records : List ResourceRecord) (rrsets : List Rrset) : Prop where
  nodup : (rrsets.map Rrset.key).Nodup
  holds : ∀ rrset ∈ rrsets, Holds (versionOf records) rrset
  covers : ∀ key ∈ versionOf records, ∃ rrset ∈ rrsets, rrset.key = key.rrsetKey
  data : ∀ rrset ∈ rrsets, ∀ rdata ∈ rrset.rdatas,
    ∃ record ∈ records, rrsetIdentity record = rrset.key ∧ record.rdata = rdata

variable {rrsets : List Rrset}

/-- A record meets the RRset of its key, or there is none and it starts one. -/
theorem gatherRecord_spec (record : ResourceRecord)
    (howners : ∀ rrset ∈ rrsets, rrset.owner.toAsciiLowercased = rrset.owner)
    (hnodup : (rrsets.map Rrset.key).Nodup) :
    ∃ new, new.key = rrsetIdentity record ∧
      ((gatherRecord rrsets (normalizeRecordOwner record)).map Rrset.key).Nodup ∧
      (∀ rrset, rrset ∈ gatherRecord rrsets (normalizeRecordOwner record) ↔
        rrset ∈ rrsets ∧ rrset.key ≠ rrsetIdentity record ∨ rrset = new) ∧
      ((∃ existing ∈ rrsets, existing.key = rrsetIdentity record ∧
          new = mergeRecord existing (normalizeRecordOwner record)) ∨
        (∀ rrset ∈ rrsets, rrset.key ≠ rrsetIdentity record) ∧
          new = singleRrset (normalizeRecordOwner record)) := by
  induction rrsets with
  | nil =>
    exact ⟨singleRrset (normalizeRecordOwner record), rrsetIdentity_normalizeRecordOwner record,
      nodup_singleton _, by simp [gatherRecord, singleRrset], .inr ⟨by simp, rfl⟩⟩
  | cons existing rest ih =>
    have hmatch : (existing.owner = (normalizeRecordOwner record).owner ∧
        existing.rrType = (normalizeRecordOwner record).rrType ∧
        existing.cls = (normalizeRecordOwner record).cls) ↔
        existing.key = rrsetIdentity record := by
      have hown : existing.owner = record.owner.toAsciiLowercased ↔
          existing.owner.canonicalKey = record.owner.canonicalKey := by
        rw [← DomainName.toAsciiLowercased_eq_iff, howners existing (mem_cons_self ..)]
      simp [normalizeRecordOwner, hown, Rrset.key, rrsetIdentity]
    obtain ⟨hfresh, hrest⟩ := nodup_cons.mp hnodup
    rw [gatherRecord]
    by_cases hkey : existing.key = rrsetIdentity record
    · rw [if_pos (hmatch.mpr hkey)]
      refine ⟨mergeRecord existing (normalizeRecordOwner record), hkey, hnodup, fun rrset => ?_,
        .inl ⟨existing, mem_cons_self .., hkey, rfl⟩⟩
      have hother : rrset ∈ rest → rrset.key ≠ rrsetIdentity record :=
        fun hmem hsame => hfresh (mem_map.mpr ⟨rrset, hmem, hsame.trans hkey.symm⟩)
      grind
    · rw [if_neg (mt hmatch.mp hkey)]
      obtain ⟨new, hnewKey, hkeys, hmem, hnew⟩ :=
        ih (fun rrset hrrset => howners rrset (mem_cons_of_mem _ hrrset)) hrest
      refine ⟨new, hnewKey, nodup_cons.mpr ⟨?_, hkeys⟩, by grind, by grind⟩
      rw [mem_map]
      rintro ⟨rrset, hrrset, hsame⟩
      rcases (hmem rrset).mp hrrset with ⟨hold, -⟩ | rfl
      · exact hfresh (mem_map.mpr ⟨rrset, hold, hsame⟩)
      · exact hkey (hsame.symm.trans hnewKey)

theorem Gathered.step {records : List ResourceRecord} (h : Gathered records rrsets)
    (last : ResourceRecord) :
    Gathered (records ++ [last]) (gatherRecord rrsets (normalizeRecordOwner last)) := by
  obtain ⟨new, hnewKey, hkeys, hmem, hnew⟩ :=
    gatherRecord_spec last (fun rrset hrrset => (h.holds rrset hrrset).owner) h.nodup
  refine ⟨hkeys, fun rrset hrrset => ?_, fun key hkey => ?_, fun rrset hrrset rdata hrdata => ?_⟩
  · rw [versionOf_append]
    rcases (hmem rrset).mp hrrset with ⟨hold, hother⟩ | rfl
    · refine (h.holds rrset hold).congr fun key hkey => ⟨Finset.mem_insert_of_mem, fun hmem => ?_⟩
      refine (Finset.mem_insert.mp hmem).resolve_left ?_
      rintro rfl
      exact hother (hkey.symm.trans (rrsetKey_fromRecord last))
    rcases hnew with ⟨existing, hexisting, hsame, rfl⟩ | ⟨hnone, rfl⟩
    · rw [← fromRecord_normalizeRecordOwner last]
      exact (h.holds existing hexisting).merge
        ((rrsetIdentity_normalizeRecordOwner last).trans hsame.symm)
    · refine holds_singleRrset fun key hkey hsame => ?_
      obtain ⟨rrset, hrrset, hkey⟩ := h.covers key hkey
      exact hnone rrset hrrset (hkey.trans hsame)
  · by_cases hsame : key.rrsetKey = rrsetIdentity last
    · exact ⟨new, (hmem new).mpr (.inr rfl), hnewKey.trans hsame.symm⟩
    · rw [versionOf_append, Finset.mem_insert] at hkey
      obtain ⟨rrset, hrrset, hfound⟩ := h.covers key
        (hkey.resolve_left fun heq => hsame (heq ▸ rrsetKey_fromRecord last))
      exact ⟨rrset, (hmem rrset).mpr (.inl ⟨hrrset, hfound ▸ hsame⟩), hfound⟩
  · have hlater : ∀ old ∈ rrsets, rdata ∈ old.rdatas →
        ∃ record ∈ records ++ [last], rrsetIdentity record = old.key ∧ record.rdata = rdata := by
      intro old hold hin
      obtain ⟨record, hrec, hkey, heq⟩ := h.data old hold rdata hin
      exact ⟨record, mem_append_left _ hrec, hkey, heq⟩
    have hlast : last ∈ records ++ [last] := mem_append_right _ (mem_singleton_self _)
    rcases (hmem rrset).mp hrrset with ⟨hold, -⟩ | rfl
    · exact hlater rrset hold hrdata
    rcases hnew with ⟨existing, hexisting, hsame, rfl⟩ | ⟨-, rfl⟩
    · have hcases : rdata ∈ existing.rdatas ∨ rdata = last.rdata := by
        simp only [mergeRecord] at hrdata
        split at hrdata
        · exact .inl hrdata
        · exact (mem_append.mp hrdata).imp id mem_singleton.mp
      rcases hcases with hin | rfl
      · exact hlater existing hexisting hin
      · exact ⟨last, hlast, hsame.symm, rfl⟩
    · exact ⟨last, hlast, hnewKey.symm, (mem_singleton.mp hrdata).symm⟩

theorem gathered_rrsetsFromRecords : Gathered records (rrsetsFromRecords records) := by
  induction records using List.reverseRecOn with
  | nil =>
    exact ⟨nodup_nil, by simp [rrsetsFromRecords], by simp [versionOf], by simp [rrsetsFromRecords]⟩
  | append_singleton records last ih =>
    rw [rrsetsFromRecords, foldl_append]
    exact ih.step last

end Gathering

end BoronDns
