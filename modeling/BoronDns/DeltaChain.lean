import BoronDns.WorkingRrsets

/-!
Difference sequences and what they make of a zone. Each sequence deletes records of
the version before it and adds records; a chain of them leads from one version to
another. The transfer reads the sequences of a chain as they were sent, and the RRsets
it works on hold, at the end, the records of the last version.
-/

namespace BoronDns

open List
open RecordKey (fromRecord)

variable {final : ZoneVersion} {sequences : List IxfrDeltaSequence} {terminal : ResourceRecord}

section Chains

def deleteRecords (version : ZoneVersion) (records : List ResourceRecord) : ZoneVersion :=
  records.foldl (fun version record => version.erase (fromRecord record)) version

def addRecords (version : ZoneVersion) (records : List ResourceRecord) : ZoneVersion :=
  records.foldl (fun version record => insert (fromRecord record) version) version

def Deletable : ZoneVersion → List ResourceRecord → Prop
  | _, [] => True
  | version, record :: rest =>
    fromRecord record ∈ version ∧ Deletable (version.erase (fromRecord record)) rest

/-- The version after a difference sequence. -/
def IxfrDeltaSequence.apply (delta : IxfrDeltaSequence) (version : ZoneVersion) : ZoneVersion :=
  addRecords (deleteRecords version (delta.oldSoa :: delta.deletes)) (delta.newSoa :: delta.adds)

/-- A chain of difference sequences from a version with one SOA to a version with another,
the final one, which no version before it has. -/
inductive DeltaChain (zoneApex : DomainName) (qclass : UInt16) (finalSoa : RecordKey) :
    ZoneVersion → RecordKey → List IxfrDeltaSequence → ZoneVersion → Prop
  | nil (version : ZoneVersion) : DeltaChain zoneApex qclass finalSoa version finalSoa [] version
  | cons {version final : ZoneVersion} {soa : RecordKey} (delta : IxfrDeltaSequence)
      {rest : List IxfrDeltaSequence}
      (hfinal : soa ≠ finalSoa)
      (hold : fromRecord delta.oldSoa = soa)
      (hdeletes : Deletable version (delta.oldSoa :: delta.deletes))
      (hsoas : isSoa delta.oldSoa = true ∧ isSoa delta.newSoa = true)
      (hothers : ∀ record ∈ delta.deletes ++ delta.adds, isSoa record = false)
      (hnew : delta.newSoa.owner.canonicalKey = zoneApex.canonicalKey ∧ delta.newSoa.cls = qclass)
      (hrest : DeltaChain zoneApex qclass finalSoa (delta.apply version)
      (fromRecord delta.newSoa) rest final) :
      DeltaChain zoneApex qclass finalSoa version soa (delta :: rest) final

/-- Each sequence in turn deletes records that are there. -/
def Followable : ZoneVersion → List IxfrDeltaSequence → Prop
  | _, [] => True
  | version, delta :: rest =>
    Deletable version (delta.oldSoa :: delta.deletes) ∧ Followable (delta.apply version) rest

def followed (version : ZoneVersion) (sequences : List IxfrDeltaSequence) : ZoneVersion :=
  sequences.foldl (fun version delta => delta.apply version) version

/-- A record of the sequences belongs to the RRset. -/
def Touched (sequences : List IxfrDeltaSequence) (key : RrsetKey) : Prop :=
  ∃ delta ∈ sequences, ∃ record ∈ delta.records, rrsetIdentity record = key

variable {zoneApex : DomainName} {qclass : UInt16} {version : ZoneVersion}

theorem mem_deleteRecords {records : List ResourceRecord} {key : RecordKey} :
    key ∈ deleteRecords version records ↔
      key ∈ version ∧ ∀ record ∈ records, fromRecord record ≠ key := by
  induction records generalizing version with
  | nil => simp [deleteRecords]
  | cons record rest ih =>
    rw [deleteRecords, foldl_cons, ← deleteRecords, ih, Finset.mem_erase, forall_mem_cons]
    grind

theorem mem_addRecords {records : List ResourceRecord} {key : RecordKey} :
    key ∈ addRecords version records ↔ key ∈ version ∨ ∃ record ∈ records,
      fromRecord record = key := by
  induction records generalizing version with
  | nil => simp [addRecords]
  | cons record rest ih =>
    rw [addRecords, foldl_cons, ← addRecords, ih, Finset.mem_insert]
    grind

theorem DeltaChain.followable {finalSoa soa : RecordKey}
    (h : DeltaChain zoneApex qclass finalSoa version soa sequences final) :
    Followable version sequences ∧ followed version sequences = final := by
  induction h with
  | nil => exact ⟨trivial, rfl⟩
  | cons delta hfinal hold hdeletes hsoas hothers hnew hrest ih => exact ⟨⟨hdeletes, ih.1⟩, ih.2⟩

/-- An RRset that no record of the sequences belongs to is the same at the end. -/
theorem mem_followed_of_untouched {key : RecordKey} (h : ¬ Touched sequences key.rrsetKey) :
    key ∈ followed version sequences ↔ key ∈ version := by
  induction sequences generalizing version with
  | nil => rfl
  | cons delta rest ih =>
    have hother : ∀ record ∈ delta.records, fromRecord record ≠ key := by
      rintro record hrec rfl
      exact h ⟨delta, mem_cons_self .., record, hrec, (rrsetKey_fromRecord record).symm⟩
    rw [IxfrDeltaSequence.records, forall_mem_append] at hother
    have hrest : ¬ Touched rest key.rrsetKey :=
      fun ⟨next, hnext, hrec⟩ => h ⟨next, mem_cons_of_mem _ hnext, hrec⟩
    rw [followed, foldl_cons, ← followed, ih hrest, IxfrDeltaSequence.apply, mem_addRecords,
      mem_deleteRecords, and_iff_left hother.1, or_iff_left fun ⟨record, hrec, heq⟩ =>
      hother.2 record hrec heq]

section Agreeing

variable {left right : ZoneVersion} {keys : RrsetKey → Prop}

/-- The versions have the same records in the RRsets. -/
def AgreeOn (keys : RrsetKey → Prop) (left right : ZoneVersion) : Prop :=
  ∀ record : RecordKey, keys record.rrsetKey → (record ∈ left ↔ record ∈ right)

theorem AgreeOn.apply (h : AgreeOn keys left right) (delta : IxfrDeltaSequence) :
    AgreeOn keys (delta.apply left) (delta.apply right) := by
  intro record hrec
  rw [IxfrDeltaSequence.apply, IxfrDeltaSequence.apply, mem_addRecords, mem_addRecords,
    mem_deleteRecords, mem_deleteRecords, h record hrec]

theorem Deletable.congr {records : List ResourceRecord} (hrecs : Deletable left records)
    (h : AgreeOn keys left right) (hkeys : ∀ record ∈ records, keys (rrsetIdentity record)) :
    Deletable right records := by
  induction records generalizing left right with
  | nil => trivial
  | cons record rest ih =>
    have hkey := hkeys record (mem_cons_self ..)
    rw [← rrsetKey_fromRecord] at hkey
    refine ⟨(h _ hkey).mp hrecs.1, ih hrecs.2 ?_ fun other hother => hkeys other
      (mem_cons_of_mem _ hother)⟩
    intro other hother
    rw [Finset.mem_erase, Finset.mem_erase, h other hother]

/-- Only the RRsets that the sequences touch decide whether they can be followed. -/
theorem Followable.congr (hfollow : Followable left sequences) (h : AgreeOn keys left right)
    (hkeys : ∀ key, Touched sequences key → keys key) :
    Followable right sequences ∧ AgreeOn keys (followed left sequences)
      (followed right sequences) := by
  induction sequences generalizing left right with
  | nil => exact ⟨trivial, h⟩
  | cons delta rest ih =>
    obtain ⟨hrest, hagree⟩ := ih hfollow.2 (h.apply delta)
      fun key ⟨next, hnext, hrec⟩ => hkeys key ⟨next, mem_cons_of_mem _ hnext, hrec⟩
    refine ⟨⟨hfollow.1.congr h fun record hrec => ?_, hrest⟩, hagree⟩
    exact hkeys _ ⟨delta, mem_cons_self .., record, mem_append_left _ hrec, rfl⟩

end Agreeing

theorem DeltaChain.head_isSoa {finalSoa soa : RecordKey}
    (h : DeltaChain zoneApex qclass finalSoa version soa sequences final)
    (hterminal : isSoa terminal = true) :
    ∀ record ∈ (sequences.flatMap IxfrDeltaSequence.records ++ [terminal]).head?,
      isSoa record = true := by
  cases h with
  | nil =>
    intro record hrec
    obtain rfl : record = terminal := by simpa [eq_comm] using hrec
    exact hterminal
  | cons next hfinal hold hdeletes hsoas hothers hnew hrest =>
    intro record hrec
    obtain rfl : record = next.oldSoa := by simpa [IxfrDeltaSequence.records, eq_comm] using hrec
    exact hsoas.1

theorem dropWhile_not_isSoa (front back : List ResourceRecord)
    (hfront : ∀ record ∈ front, isSoa record = false)
    (hback : ∀ record ∈ back.head?, isSoa record = true) :
    (front ++ back).dropWhile (fun record => !isSoa record) = back ∧
      (front ++ back).takeWhile (fun record => !isSoa record) = front := by
  induction front with
  | nil =>
    cases back with
    | nil => exact ⟨rfl, rfl⟩
    | cons first rest => simp [hback first (by simp)]
  | cons first rest ih =>
    obtain ⟨hdrop, htake⟩ := ih fun record hrec => hfront record (mem_cons_of_mem _ hrec)
    simp [hfront first (mem_cons_self ..), hdrop, htake]

/-- The SOA the response starts with, given the SOA of the zone now, stands behind the chain. -/
theorem deltaSequences_of_chain {outerSoa : ResourceRecord}
    (hterminal : fromRecord terminal = fromRecord outerSoa)
    (houter : isSoa outerSoa = true) {soa : RecordKey}
    (h : DeltaChain zoneApex qclass (fromRecord outerSoa) version soa sequences final)
    (hserials : ∀ delta ∈ sequences, ∃ serial, soaSerial delta.newSoa.rdata = .ok serial)
    (expected : ResourceRecord) (hexpected : fromRecord expected = soa) :
    deltaSequences zoneApex qclass outerSoa expected
      (sequences.flatMap IxfrDeltaSequence.records ++ [terminal]) =
          .ok (sequences, (sequences.map IxfrDeltaSequence.newSoa).getLastD expected, true) ∧
      fromRecord ((sequences.map IxfrDeltaSequence.newSoa).getLastD expected) =
        fromRecord outerSoa := by
  have hterminalSoa : isSoa terminal = true := by
    have htype : terminal.rrType = outerSoa.rrType := congrArg RecordKey.rrType hterminal
    rw [isSoa, htype]
    exact houter
  induction h generalizing expected with
  | nil version =>
    refine ⟨?_, hexpected⟩
    show deltaSequences zoneApex qclass outerSoa expected [terminal] = _
    rw [deltaSequences, (resourceRecordsSemanticallyEqual_iff _ _).mpr hterminal,
      (resourceRecordsSemanticallyEqual_iff _ _).mpr hexpected]
    rfl
  | @cons version final soa delta rest hfinal hold hdeletes hsoas hothers hnew hrest ih =>
    obtain ⟨serial, hserial⟩ := hserials delta (mem_cons_self ..)
    obtain ⟨hsequences, hlast⟩ :=
      ih (fun other hother => hserials other (mem_cons_of_mem _ hother)) delta.newSoa rfl
    rw [map_cons, getLastD_cons]
    refine ⟨?_, hlast⟩
    obtain ⟨hdrop, htake⟩ := dropWhile_not_isSoa delta.deletes
      (delta.newSoa :: (delta.adds ++ (rest.flatMap IxfrDeltaSequence.records ++ [terminal])))
      (fun record hrec => hothers record (mem_append_left _ hrec))
      (by simpa using hsoas.2)
    obtain ⟨hdropAdds, htakeAdds⟩ := dropWhile_not_isSoa delta.adds
      (rest.flatMap IxfrDeltaSequence.records ++ [terminal])
      (fun record hrec => hothers record (mem_append_right _ hrec))
      (hrest.head_isSoa hterminalSoa)
    have hans : (delta :: rest).flatMap IxfrDeltaSequence.records ++ [terminal] =
        delta.oldSoa :: (delta.deletes ++ (delta.newSoa ::
          (delta.adds ++ (rest.flatMap IxfrDeltaSequence.records ++ [terminal])))) := by
      simp [IxfrDeltaSequence.records]
    have hnotFinal : resourceRecordsSemanticallyEqual expected outerSoa = false := by
      rw [Bool.eq_false_iff, ne_eq, resourceRecordsSemanticallyEqual_iff, hexpected]
      exact hfinal
    have hmatches : resourceRecordsSemanticallyEqual delta.oldSoa expected = true :=
      (resourceRecordsSemanticallyEqual_iff _ _).mpr (hold.trans hexpected.symm)
    rw [hans, deltaSequences, hnotFinal, Bool.and_false, if_neg (by simp), hsoas.1, hmatches]
    rw [if_neg (by simp)]
    split
    next hnone =>
      rw [hdrop] at hnone
      cases hnone
    next newSoa afterSoa hsome =>
      rw [hdrop, List.cons.injEq] at hsome
      obtain ⟨rfl, rfl⟩ := hsome
      rw [if_neg (by simp [hnew.1, hnew.2]), hserial, hdropAdds, hsequences, htake, htakeAdds]
      rfl

end Chains

section Applying

variable {platform : Platform} {currentZone : ZoneSnapshot platform} {start version : ZoneVersion}
  {workingRrsets : WorkingRrsets} {source : ResourceRecord → Prop}

section

variable {records : List ResourceRecord}

theorem WorkingFor.deletes (h : WorkingFor start version source workingRrsets)
    (hserves : Serves currentZone start source) (hrecs : Deletable version records) :
    ∃ next, records.foldlM (removeDeltaRecord currentZone) workingRrsets = .ok next ∧
      WorkingFor start (deleteRecords version records) source next := by
  induction records generalizing version workingRrsets with
  | nil => exact ⟨workingRrsets, rfl, h⟩
  | cons record rest ih =>
    obtain ⟨_, hremove, hmiddle⟩ := h.remove hserves hrecs.1
    obtain ⟨next, hrest, hnext⟩ := ih hmiddle hrecs.2
    exact ⟨next, by rw [foldlM_cons, hremove, Except.ok_bind_eq, hrest], hnext⟩

/-- Only records of the version are deleted. -/
theorem WorkingFor.deletable (h : WorkingFor start version source workingRrsets)
    (hserves : Serves currentZone start source) {next : WorkingRrsets}
    (hfold : records.foldlM (removeDeltaRecord currentZone) workingRrsets = .ok next) :
    Deletable version records := by
  induction records generalizing version workingRrsets with
  | nil => trivial
  | cons record rest ih =>
    rw [foldlM_cons] at hfold
    obtain ⟨middle, hremove, hrest⟩ := Except.bind_eq_ok_iff.mp hfold
    have hmem := h.mem_of_remove hserves hremove
    obtain ⟨_, hsame, hmiddle⟩ := h.remove hserves hmem
    obtain rfl := Except.ok.inj (hremove.symm.trans hsame)
    exact ⟨hmem, ih hmiddle hrest⟩

theorem WorkingFor.adds (h : WorkingFor start version source workingRrsets)
    (hserves : Serves currentZone start source) (hrecs : ∀ record ∈ records, source record) :
    WorkingFor start (addRecords version records) source
      (records.foldl (addDeltaRecord currentZone) workingRrsets) := by
  induction records generalizing version workingRrsets with
  | nil => exact h
  | cons record rest ih =>
    exact ih (h.add hserves (hrecs record (mem_cons_self ..)))
      fun other hother => hrecs other (mem_cons_of_mem _ hother)

/-- A sequence is applied when its records can be deleted, and only then. -/
theorem WorkingFor.sequence (h : WorkingFor start version source workingRrsets)
    (hserves : Serves currentZone start source) {delta : IxfrDeltaSequence}
    (hsource : ∀ record ∈ delta.newSoa :: delta.adds, source record) :
    (Deletable version (delta.oldSoa :: delta.deletes) →
        ∃ next, applyDeltaSequence currentZone workingRrsets delta = .ok next) ∧
      ∀ next, applyDeltaSequence currentZone workingRrsets delta = .ok next →
        Deletable version (delta.oldSoa :: delta.deletes) ∧
          WorkingFor start (delta.apply version) source next := by
  have happly : applyDeltaSequence currentZone workingRrsets delta =
      (delta.oldSoa :: delta.deletes).foldlM (removeDeltaRecord currentZone) workingRrsets >>=
        fun deleted =>
        .ok ((delta.newSoa :: delta.adds).foldl (addDeltaRecord currentZone) deleted) := by
    rw [foldlM_cons, applyDeltaSequence, bind_assoc]
    rfl
  rw [happly]
  constructor
  · intro hdeletes
    obtain ⟨deleted, hdeleted, -⟩ := h.deletes hserves hdeletes
    exact ⟨_, by rw [hdeleted]; rfl⟩
  · intro next hnext
    obtain ⟨deleted, hdeleted, hadded⟩ := Except.bind_eq_ok_iff.mp hnext
    obtain rfl := Except.ok.inj hadded
    have hdeletes := h.deletable hserves hdeleted
    obtain ⟨_, hsame, hworking⟩ := h.deletes hserves hdeletes
    obtain rfl := Except.ok.inj (hdeleted.symm.trans hsame)
    exact ⟨hdeletes, hworking.adds hserves hsource⟩

end

/-- Sequences are applied one after the other when the records of each can be deleted, and
only then. -/
theorem WorkingFor.chain (hserves : Serves currentZone start source)
    (hsource : ∀ delta ∈ sequences, ∀ record ∈ delta.newSoa :: delta.adds, source record)
    (h : WorkingFor start version source workingRrsets) :
    (Followable version sequences →
        ∃ next, sequences.foldlM (applyDeltaSequence currentZone) workingRrsets = .ok next) ∧
      ∀ next, sequences.foldlM (applyDeltaSequence currentZone) workingRrsets = .ok next →
        Followable version sequences ∧ WorkingFor start
          (followed version sequences) source next := by
  induction sequences generalizing version workingRrsets with
  | nil => exact ⟨fun _ => ⟨_, rfl⟩, fun next hnext => ⟨trivial, Except.ok.inj hnext ▸ h⟩⟩
  | cons delta rest ih =>
    obtain ⟨happlies, happlied⟩ := h.sequence hserves (hsource delta (mem_cons_self ..))
    have hrest := fun other hother => hsource other (mem_cons_of_mem _ hother)
    constructor
    · rintro ⟨hdeletes, hfollow⟩
      obtain ⟨middle, hmiddle⟩ := happlies hdeletes
      obtain ⟨next, hnext⟩ := (ih hrest (happlied middle hmiddle).2).1 hfollow
      exact ⟨next, by rw [foldlM_cons, hmiddle, Except.ok_bind_eq, hnext]⟩
    · intro next hnext
      rw [foldlM_cons] at hnext
      obtain ⟨middle, hmiddle, hnext⟩ := Except.bind_eq_ok_iff.mp hnext
      obtain ⟨hdeletes, hworking⟩ := happlied middle hmiddle
      obtain ⟨hfollow, hfinal⟩ := (ih hrest hworking).2 next hnext
      exact ⟨⟨hdeletes, hfollow⟩, hfinal⟩

end Applying

section Touching

variable {platform : Platform} {currentZone : ZoneSnapshot platform} {working next : WorkingRrsets}
  {key : RrsetKey}

theorem mem_removeDeltaRecord {record : ResourceRecord}
    (h : removeDeltaRecord currentZone working record = .ok next) :
    key ∈ next ↔ key ∈ working ∨ rrsetIdentity record = key := by
  unfold removeDeltaRecord at h
  dsimp only at h
  split at h
  · cases h
  · rw [← Except.ok.inj h, AList.mem_insert, or_comm, eq_comm]

theorem mem_foldlM_removeDeltaRecord {records : List ResourceRecord}
    (h : records.foldlM (removeDeltaRecord currentZone) working = .ok next) :
    key ∈ next ↔ key ∈ working ∨ ∃ record ∈ records, rrsetIdentity record = key := by
  induction records generalizing working with
  | nil => rw [← Except.ok.inj h]; simp
  | cons record rest ih =>
    rw [foldlM_cons] at h
    obtain ⟨middle, hremove, hrest⟩ := Except.bind_eq_ok_iff.mp h
    have hfirst : key ∈ middle ↔ _ := mem_removeDeltaRecord hremove
    grind

theorem mem_foldl_addDeltaRecord (records : List ResourceRecord) (working : WorkingRrsets) :
    key ∈ records.foldl (addDeltaRecord currentZone) working ↔
      key ∈ working ∨ ∃ record ∈ records, rrsetIdentity record = key := by
  induction records generalizing working with
  | nil => simp
  | cons record rest ih =>
    rw [foldl_cons, ih, addDeltaRecord, AList.mem_insert]
    grind

/-- The working RRsets are those that some record of the sequences belongs to. -/
theorem mem_sequences (h : sequences.foldlM (applyDeltaSequence currentZone) working = .ok next) :
    key ∈ next ↔ key ∈ working ∨ Touched sequences key := by
  induction sequences generalizing working with
  | nil => rw [← Except.ok.inj h]; simp [Touched]
  | cons delta rest ih =>
    rw [foldlM_cons] at h
    obtain ⟨middle, hmiddle, hrest⟩ := Except.bind_eq_ok_iff.mp h
    obtain ⟨first, hfirst, hmiddle⟩ := Except.bind_eq_ok_iff.mp hmiddle
    obtain ⟨second, hsecond, hmiddle⟩ := Except.bind_eq_ok_iff.mp hmiddle
    rw [ih hrest, ← Except.ok.inj hmiddle, ← foldl_cons, mem_foldl_addDeltaRecord,
      mem_foldlM_removeDeltaRecord hsecond, mem_removeDeltaRecord hfirst]
    simp only [Touched, IxfrDeltaSequence.records, mem_append, or_and_right, exists_or, mem_cons,
      exists_eq_left, or_assoc]

end Touching

section Replacing

variable {version other : ZoneVersion} {rrset : Rrset} {key : RrsetKey}

theorem Stores.congr {stored : Option Rrset} (h : Stores version key stored)
    (hsame : ∀ record : RecordKey, record.rrsetKey = key → (record ∈ version ↔ record ∈ other)) :
    Stores other key stored := by
  cases stored with
  | none => exact fun record hmem hkey => h record ((hsame record hkey).mpr hmem) hkey
  | some rrset => exact ⟨h.1, h.2.congr fun record hkey => hsame record (hkey.trans h.1)⟩

/-- The RRset of a key is stored alike for two versions: it has the same data and the same
lowest time to live. -/
structure StoredAlike (key : RrsetKey) (left right : ZoneVersion) : Prop where
  rdatas : ∀ rdata, (∃ record ∈ left, record.rrsetKey = key ∧ record.rdata = rdata) ↔
    ∃ record ∈ right, record.rrsetKey = key ∧ record.rdata = rdata
  ttl_le : ∀ record ∈ left, record.rrsetKey = key →
    ∃ low ∈ right, low.rrsetKey = key ∧ low.ttl ≤ record.ttl
  ttl_ge : ∀ record ∈ right, record.rrsetKey = key →
    ∃ low ∈ left, low.rrsetKey = key ∧ low.ttl ≤ record.ttl

theorem AgreeOn.storedAlike {keys : RrsetKey → Prop} (h : AgreeOn keys version other)
    (hkey : keys key) : StoredAlike key version other := by
  have hmem : ∀ record : RecordKey, record.rrsetKey = key →
      (record ∈ version ↔ record ∈ other) := by
    rintro record rfl
    exact h record hkey
  constructor
  · intro rdata
    exact exists_congr fun record => by grind
  · exact fun record hrec hrecordKey => ⟨record, (hmem record hrecordKey).mp hrec, hrecordKey,
      UInt32.le_refl _⟩
  · exact fun record hrec hrecordKey => ⟨record, (hmem record hrecordKey).mpr hrec,
      hrecordKey, UInt32.le_refl _⟩

theorem Stores.of_storedAlike {stored : Option Rrset} (h : Stores version key stored)
    (halike : StoredAlike key version other) : Stores other key stored := by
  cases stored with
  | none =>
    intro record hrec hkey
    obtain ⟨found, hfound, hfoundKey, -⟩ :=
      (halike.rdatas record.rdata).mpr ⟨record, hrec, hkey, rfl⟩
    exact h found hfound hfoundKey
  | some rrset =>
    obtain ⟨rfl, hholds⟩ := h
    have hlowest : ∀ record ∈ other, record.rrsetKey = rrset.key → rrset.ttl ≤ record.ttl := by
      intro record hrec hkey
      obtain ⟨low, hlow, hlowKey, hle⟩ := halike.ttl_ge record hrec hkey
      exact UInt32.le_trans (hholds.ttl_le low hlow hlowKey) hle
    refine ⟨rfl, hholds.owner, hlowest, ?_, fun rdata => (hholds.rdatas rdata).trans
      (halike.rdatas rdata), hholds.distinct⟩
    obtain ⟨record, hrec, hkey, httl⟩ := hholds.ttl_mem
    obtain ⟨low, hlow, hlowKey, hle⟩ := halike.ttl_le record hrec hkey
    exact ⟨low, hlow, hlowKey, UInt32.le_antisymm (httl ▸ hle) (hlowest low hlow hlowKey)⟩

theorem Stores.storedAlike {left right : Option Rrset} (hleft : Stores version key left)
    (hright : Stores other key right) (hsame : Option.Rel SameRrset left right) :
    StoredAlike key version other := by
  cases hsame with
  | none =>
    refine ⟨fun rdata => ?_, fun record hrec hkey => absurd hkey (hleft record hrec),
      fun record hrec hkey => absurd hkey (hright record hrec)⟩
    constructor
    · rintro ⟨record, hrec, hkey, -⟩
      exact absurd hkey (hleft record hrec)
    · rintro ⟨record, hrec, hkey, -⟩
      exact absurd hkey (hright record hrec)
  | some hsame =>
    obtain ⟨rfl, hleft⟩ := hleft
    obtain ⟨hkey, hright⟩ := hright
    constructor
    · intro rdata
      rw [← hleft.rdatas, hsame.rdatas, hright.rdatas, hkey]
    · intro record hrec hrecordKey
      obtain ⟨low, hlow, hlowKey, httl⟩ := hright.ttl_mem
      refine ⟨low, hlow, hlowKey.trans hkey, ?_⟩
      rw [httl, ← hsame.ttl]
      exact hleft.ttl_le record hrec hrecordKey
    · intro record hrec hrecordKey
      obtain ⟨low, hlow, hlowKey, httl⟩ := hleft.ttl_mem
      refine ⟨low, hlow, hlowKey, ?_⟩
      rw [httl, hsame.ttl]
      exact hright.ttl_le record hrec (hrecordKey.trans hkey.symm)

/-- Records of one key are gathered into one RRset. -/
theorem stores_getLast {records : List ResourceRecord}
    (h : ∀ record ∈ versionOf records, record.rrsetKey = key) :
    Stores (versionOf records) key (rrsetsFromRecords records).getLast? := by
  have hgathered := gathered_rrsetsFromRecords records
  have hkeys : ∀ rrset ∈ rrsetsFromRecords records, rrset.key = key := by
    intro rrset hrrset
    obtain ⟨record, hrec, hkey, -⟩ := (hgathered.holds rrset hrrset).ttl_mem
    exact hkey.symm.trans (h record hrec)
  cases hlast : (rrsetsFromRecords records).getLast? with
  | none =>
    intro record hrec
    obtain ⟨rrset, hrrset, -⟩ := hgathered.covers record hrec
    rw [List.getLast?_eq_none_iff.mp hlast] at hrrset
    cases hrrset
  | some rrset =>
    have hmem := mem_of_getLast? hlast
    exact ⟨hkeys rrset hmem, hgathered.holds rrset hmem⟩

theorem map_fst_replacementsOf (workingRrsets : WorkingRrsets) :
    (replacementsOf workingRrsets).map Prod.fst = workingRrsets.keys := by
  rw [replacementsOf, map_map]
  rfl

variable {platform : Platform} {currentZone : ZoneSnapshot platform} {start : ZoneVersion}
  {workingRrsets : WorkingRrsets} {source : ResourceRecord → Prop}

theorem lookup_replacementsOf (rrsets : RrsetMap) (workingRrsets : WorkingRrsets) (key : RrsetKey) :
    (rrsets.putAll (replacementsOf workingRrsets)).lookup key = (workingRrsets.lookup key).elim
      (rrsets.lookup key)
        fun working => (rrsetsFromRecords working.records).getLast? := by
  cases hlook : workingRrsets.lookup key with
  | none =>
    refine AList.lookup_putAll_of_notMem _ _ ?_
    rw [map_fst_replacementsOf, AList.mem_keys_iff_lookup, hlook]
    simp
  | some working =>
    refine AList.lookup_putAll_of_mem _ ?_ ?_
    · rw [map_fst_replacementsOf]
      exact workingRrsets.nodupKeys
    · exact mem_map.mpr ⟨⟨key, working⟩, AList.mem_lookup_iff.mp hlook, rfl⟩

theorem WorkingFor.stores_touched (h : WorkingFor start version source workingRrsets)
    {working : WorkingRrset} (hlook : workingRrsets.lookup key = some working) :
    Stores version key (rrsetsFromRecords working.records).getLast? := by
  have hmem := h.mem_iff key working hlook
  refine (stores_getLast fun record hrec => ((hmem record).mp hrec).2).congr
    fun record hkey => ?_
  rw [hmem record]
  exact and_iff_left hkey

/-- The data of an RRset come from records of the source. -/
def FromSource (source : ResourceRecord → Prop) (rrset : Rrset) : Prop :=
  ∀ rdata ∈ rrset.rdatas, ∃ record, source record ∧ rrsetIdentity record = rrset.key ∧
    record.rdata = rdata

theorem WorkingFor.fromSource (h : WorkingFor start version source workingRrsets)
    (hcur : ∀ key rrset, currentZone.rrsets.lookup key = some rrset → FromSource source rrset)
    {rrset : Rrset}
    (hlook : (currentZone.rrsets.putAll (replacementsOf workingRrsets)).lookup key = some rrset) :
    FromSource source rrset := by
  rw [lookup_replacementsOf] at hlook
  cases hworking : workingRrsets.lookup key with
  | none =>
    rw [hworking] at hlook
    exact hcur key rrset hlook
  | some working =>
    rw [hworking] at hlook
    intro rdata hrdata
    obtain ⟨record, hrec, hkey, heq⟩ :=
      (gathered_rrsetsFromRecords working.records).data rrset (mem_of_getLast? hlook) rdata hrdata
    exact ⟨record, h.source key working hworking record hrec, hkey, heq⟩

end Replacing

end BoronDns
