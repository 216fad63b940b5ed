import BoronDns.CacheRuns

/-!
Operations on the cache that are cut short. Promotion is one rename, which commits,
and unlinks that clean up; a crash or a failure leaves the files as they were or with
the rename done. What is restored is then the generation from before the operation or
the new one, unless the digest of the new file is already named by a file that a
cleanup left behind.
-/

namespace BoronDns

open Bytes Fields List Option Except ZoneSnapshot

namespace ZonePersistence

section Interruption

variable {files result : CacheFiles} {steps : List FileStep}

/-- The files when the steps end early: after a crash, or after a failure, which ends them at a
rename and is passed over at an unlink. -/
inductive Interrupted : List FileStep → CacheFiles → CacheFiles → Prop
  | stop (steps : List FileStep) (files : CacheFiles) : Interrupted steps files files
  | step {step : FileStep} {rest : List FileStep} {files result : CacheFiles}
      (next : Interrupted rest (step.apply files) result) : Interrupted (step :: rest) files result
  | skip {file : CacheFile} {rest : List FileStep} {files result : CacheFiles}
      (next : Interrupted rest files result) : Interrupted (.unlink file :: rest) files result

theorem interrupted_foldl (steps : List FileStep) (files : CacheFiles) :
    Interrupted steps files (steps.foldl FileStep.apply files) := by
  induction steps generalizing files with
  | nil => exact .stop _ _
  | cons step rest ih => exact .step (ih _)

/-- A cleanup leaves each file as it is or takes it away. -/
theorem Interrupted.of_unlinks {unlinks : List CacheFile}
    (h : Interrupted (unlinks.map FileStep.unlink) files result)
    (hcheckpoint : CacheFile.checkpoint ∉ unlinks) : result.checkpoint = files.checkpoint ∧
      (result.journal = files.journal ∨ CacheFile.journal ∈ unlinks ∧ result.journal = none) ∧
      (result.freshness = files.freshness ∨ result.freshness = none) := by
  induction unlinks generalizing files with
  | nil =>
    cases h
    exact ⟨rfl, .inl rfl, .inl rfl⟩
  | cons file rest ih =>
    rw [mem_cons, not_or] at hcheckpoint
    cases h with
    | stop => exact ⟨rfl, .inl rfl, .inl rfl⟩
    | skip next =>
      obtain ⟨hsame, hjournal, hfreshness⟩ := ih next hcheckpoint.2
      exact ⟨hsame, hjournal.imp_right fun h => ⟨mem_cons_of_mem _ h.1, h.2⟩, hfreshness⟩
    | step next =>
      obtain ⟨hsame, hjournal, hfreshness⟩ := ih next hcheckpoint.2
      cases file with
      | checkpoint => exact absurd rfl hcheckpoint.1
      | journal =>
        refine ⟨hsame, .inr ⟨mem_cons_self .., ?_⟩, hfreshness⟩
        rcases hjournal with hjournal | hjournal
        · exact hjournal
        · exact hjournal.2
      | freshness =>
        refine ⟨hsame, hjournal.imp_right fun h => ⟨mem_cons_of_mem _ h.1, h.2⟩, .inr ?_⟩
        exact hfreshness.elim id id

/-- The staged file is in its place, and the cleanup behind it may be done. -/
structure Promoted (files : CacheFiles) (staged : StagedZoneCache) (result : CacheFiles) :
    Prop where
  checkpoint : result.checkpoint = (files.put staged.finalPath (some staged.bytes)).checkpoint
  journal : result.journal = (files.put staged.finalPath (some staged.bytes)).journal ∨
    staged.removeJournal = true ∧ result.journal = none
  freshness : result.freshness = files.freshness ∨ result.freshness = none

variable {staged : StagedZoneCache}

theorem Promoted.of_cleanup (hfile : staged.finalPath ≠ .freshness)
    (h : Interrupted ((if staged.removeJournal then [.unlink .journal] else []) ++
      [.unlink .freshness])
      (files.put staged.finalPath (some staged.bytes)) result) : Promoted files staged result := by
  have hfresh : (files.put staged.finalPath (some staged.bytes)).freshness = files.freshness := by
    cases hpath : staged.finalPath with
    | checkpoint => rfl
    | journal => rfl
    | freshness => exact absurd hpath hfile
  cases hremove : staged.removeJournal with
  | true =>
    rw [hremove, if_pos rfl] at h
    have hcleanup := @Interrupted.of_unlinks _ _ [.journal, .freshness] h (by decide)
    rw [hfresh] at hcleanup
    exact ⟨hcleanup.1, hcleanup.2.1.imp_right fun h => ⟨hremove, h.2⟩, hcleanup.2.2⟩
  | false =>
    rw [hremove, if_neg (by decide)] at h
    have hcleanup := @Interrupted.of_unlinks _ _ [.freshness] h (by decide)
    rw [hfresh] at hcleanup
    exact ⟨hcleanup.1, hcleanup.2.1.imp_right fun h => absurd h.1 (by decide), hcleanup.2.2⟩

/-- What the promotion of a staged file can leave behind. -/
theorem Interrupted.of_promote (hfile : staged.finalPath ≠ .freshness)
    (h : Interrupted staged.promote files result) :
    result = files ∨ Promoted files staged result := by
  cases h with
  | stop => exact .inl rfl
  | step next => exact .inr (Promoted.of_cleanup hfile next)

end Interruption

section Operations

variable {platform : Platform}
  {files : CacheFiles} {live : Option (ZoneSnapshot platform)}
  {snapshot : ZoneSnapshot platform} {now : UInt64} {staged : StagedZoneCache}

/-- The serial does not go back behind that of the live zone. An operator can ask for a transfer
that repeats it. -/
def Admissible (live : Option (ZoneSnapshot platform)) (snapshot : ZoneSnapshot platform) : Prop :=
  ∀ previous ∈ live, ∀ oldSerial newSerial, previous.serial = some oldSerial →
    snapshot.serial = some newSerial → newSerial - oldSerial < 0x80000000

/-- A snapshot is staged: a validated one in full, or what an accepted incremental transfer makes
of the live one. -/
inductive Stages (cache : ZonePersistence) (zoneApex : DomainName) (qclass : UInt16)
    (files : CacheFiles) :
    Option (ZoneSnapshot platform) → ZoneSnapshot platform → UInt64 → StagedZoneCache → Prop
  | full {live : Option (ZoneSnapshot platform)} {snapshot : ZoneSnapshot platform} {now : UInt64}
      {staged : StagedZoneCache} (valid : Validated zoneApex qclass snapshot)
        (admissible : Admissible live snapshot)
      (stage : cache.stage now snapshot = .ok staged) : Stages cache zoneApex qclass files live
        snapshot now staged
  | incremental {previous snapshot : ZoneSnapshot platform} {now : UInt64}
      {staged : StagedZoneCache} {identity : ℕ} {qid : UInt16} {messages : List (List UInt8)}
      (transfer : parseIxfrResponse identity qid zoneApex qclass previous messages =
      .ok (.updated snapshot))
      (advances : Advances previous snapshot)
      (stage : cache.stageIncremental now files previous snapshot = .ok staged) :
      Stages cache zoneApex qclass files (some previous) snapshot now staged

/-- An operation on the files: a staged snapshot is promoted, or the freshness is renewed. -/
inductive Operation (platform : Platform)
  | publish (snapshot : ZoneSnapshot platform) (now : UInt64) (staged : StagedZoneCache)
  | renew (now : UInt64) (steps : List FileStep)

namespace Operation

def steps : Operation platform → List FileStep
  | publish _ _ staged => staged.promote
  | renew _ steps => steps

def liveAfter (live : Option (ZoneSnapshot platform)) :
    Operation platform → Option (ZoneSnapshot platform)
  | publish snapshot _ _ => some snapshot
  | renew _ _ => live

/-- The time on record for the zone after the operation, when `before` is the one on record before
it. -/
def recorded (before : UInt64) : Operation platform → UInt64
  | publish _ now _ => now
  | renew now _ => max now before

end Operation

/-- The operation can be started. The staged files that are promoted are among the `allowed` ones.
-/
inductive Enabled (cache : ZonePersistence) (zoneApex : DomainName) (qclass : UInt16)
    (allowed : CacheFiles → ZoneSnapshot platform → StagedZoneCache → Prop) (files : CacheFiles) :
    Option (ZoneSnapshot platform) → Operation platform → Prop
  | publish {live : Option (ZoneSnapshot platform)} {snapshot : ZoneSnapshot platform}
      {now : UInt64}
      {staged : StagedZoneCache}
        (stages : Stages cache zoneApex qclass files live snapshot now staged)
      (accepted : allowed files snapshot staged) : Enabled cache zoneApex qclass allowed files live
        (.publish snapshot now staged)
  | renew {live : ZoneSnapshot platform} {now : UInt64} {steps : List FileStep}
      (renewed : cache.renewFreshness now live.origin live.serial files = .ok steps) :
      Enabled cache zoneApex qclass allowed files (some live) (.renew now steps)

/-- The files and the live zone, from an empty directory on, after operations that are cut short
anywhere. The zone is the new one once the first step of its operation is done; a restart makes it
the one that is restored. -/
inductive Reachable (cache : ZonePersistence) (zoneApex : DomainName) (qclass : UInt16)
    (allowed : CacheFiles → ZoneSnapshot platform → StagedZoneCache → Prop) :
    CacheFiles → Option (ZoneSnapshot platform) → Prop
  | empty : Reachable cache zoneApex qclass allowed ⟨none, none, none⟩ none
  | operate {files result : CacheFiles} {live : Option (ZoneSnapshot platform)}
      {operation : Operation platform}
      {first : FileStep} {rest : List FileStep}
      (before : Reachable cache zoneApex qclass allowed files live)
      (enabled : Enabled cache zoneApex qclass allowed files live operation)
      (steps : operation.steps = first :: rest)
      (interrupted : Interrupted rest (first.apply files) result) :
      Reachable cache zoneApex qclass allowed result (operation.liveAfter live)
  | restart {files : CacheFiles} {live : Option (ZoneSnapshot platform)}
      {identity : ℕ} {now : UInt64} {expectedOrigin : DomainName} {restored : RestoredZone platform}
      (before : Reachable cache zoneApex qclass allowed files live)
      (origin : expectedOrigin.canonicalKey = zoneApex.canonicalKey)
      (restores : cache.restore identity now expectedOrigin qclass files = .ok (some restored)) :
      Reachable cache zoneApex qclass allowed files (some restored.snapshot)

def digestOf (staged : StagedZoneCache) : List UInt8 := staged.bytes.drop (staged.bytes.length - 32)

/-- The journal or the freshness on disk was made for a file with this digest. -/
def Named (cache : ZonePersistence) (origin : DomainName) (serial : Option UInt32)
    (files : CacheFiles) (digest : List UInt8) : Prop :=
  (∃ bytes payload journal checksum, files.journal = some bytes ∧
    cache.readJournalBytes origin bytes = .ok (payload, journal, checksum) ∧
    journal.baseChecksum = digest) ∨
  (cache.readFreshness serial digest files.freshness).isSome

/-- No file that is left over on disk was made for a file with the digest of the staged one. -/
def Unnamed (cache : ZonePersistence) (files : CacheFiles) (snapshot : ZoneSnapshot platform)
    (staged : StagedZoneCache) : Prop :=
  ¬ Named cache snapshot.origin snapshot.serial files (digestOf staged)

end Operations

section Restoring

variable {platform : Platform} {cache : ZonePersistence} {zoneApex : DomainName} {qclass : UInt16}
  {files : CacheFiles} {base : Checkpoint} {entries : List JournalEntry} {active : List UInt8}
  {live snapshot : ZoneSnapshot platform} {rel : Rrset → Rrset → Prop}

/-- The time of the last entry, or of the checkpoint when there is none. -/
def recordedTime (base : Checkpoint) (entries : List JournalEntry) : UInt64 :=
  (entries.getLast?).elim base.persistedUnixSecs JournalEntry.persistedUnixSecs

theorem replay_time {identity : ℕ} {state : ZoneSnapshot platform × UInt64}
    (h : replay identity qclass base entries = .ok state) :
    state.2 = recordedTime base entries := by
  induction entries using List.reverseRecOn with
  | nil =>
    obtain ⟨start, -, hfold⟩ := bind_eq_ok_iff.mp h
    exact (congrArg Prod.snd (ok.inj hfold)).symm
  | append_singleton front last _ =>
    obtain ⟨start, -, hfold⟩ := bind_eq_ok_iff.mp h
    rw [foldlM_append] at hfold
    obtain ⟨middle, -, hfold⟩ := bind_eq_ok_iff.mp hfold
    obtain ⟨final, hfinal, hfold⟩ := bind_eq_ok_iff.mp hfold
    obtain rfl := ok.inj hfold
    rw [recordedTime, List.getLast?_concat]
    unfold replayEntry at hfinal
    split at hfinal
    · cases hfinal
    obtain ⟨_, -, hfinal⟩ := bind_eq_ok_iff.mp hfinal
    exact (congrArg Prod.snd (ok.inj hfinal)).symm

theorem mirrors_restoredAt {restored : ZoneSnapshot platform}
    (h : Mirrors rel zoneApex qclass restored live)
    (now time : UInt64) :
    Mirrors rel zoneApex qclass (restoredAt now restored time).snapshot live := by
  unfold restoredAt
  dsimp only
  split
  · obtain ⟨serial, hserial, hcontent⟩ := h.validated.content
    exact ⟨⟨h.validated.origin, h.validated.originKey, h.validated.soaTimers,
      h.validated.soaRecordCount, serial, hserial, hcontent⟩, h.rrsets, h.serial⟩
  · exact h

theorem persistedUnixSecs_restoredAt (now : UInt64) (restored : ZoneSnapshot platform)
    (time : UInt64) : (restoredAt now restored time).persistedUnixSecs = time := by
  unfold restoredAt
  dsimp only
  split <;> rfl

/-- What is kept is restored, at the time on record or a later one of the freshness. -/
theorem Kept.restore (hdigest : cache.DigestLength)
    (h : Kept rel cache zoneApex qclass files live base entries active)
    {expectedOrigin : DomainName} (horigin : expectedOrigin.canonicalKey = zoneApex.canonicalKey)
    (identity : ℕ) (now : UInt64) :
    ∃ snapshot, replay identity qclass base entries = .ok (snapshot, recordedTime base entries) ∧
      cache.restore identity now expectedOrigin qclass files = .ok (some (restoredAt now snapshot
        (max ((cache.readFreshness live.serial active files.freshness).getD
          (recordedTime base entries))
          (recordedTime base entries)))) ∧ Mirrors rel zoneApex qclass snapshot live := by
  obtain ⟨snapshot, time, hreplay, hmirrors⟩ := h.replays identity
  obtain rfl : time = recordedTime base entries := replay_time hreplay
  refine ⟨snapshot, hreplay, ?_, hmirrors⟩
  rw [h.holding.restore hdigest horigin hreplay now, hmirrors.serial]

/-- What is on record for the freshness is read back. -/
theorem readFreshness_writeFreshness (hdigest : cache.DigestLength) (hactive : active.length = 32)
    (serial : Option UInt32) (time : UInt64) :
    cache.readFreshness serial active
      (some (cache.writeFreshness serial active time)) = some time := by
  have hlen : (cache.writeFreshness serial active time).length =
      freshnessMagic.length + (writeSerial serial).length + 32 + 8 + 32 := by
    simp only [writeFreshness, freshnessBody, length_append, hactive, length_be64, hdigest _]
  have hmagic : take () freshnessMagic.length (cache.writeFreshness serial active time) =
      .ok (freshnessMagic,
      writeSerial serial ++
      (active ++ (be64 time ++ cache.sha256 (freshnessBody serial active time)))) := by
    have hread : cache.writeFreshness serial active time = freshnessMagic ++ (writeSerial serial ++
        (active ++ (be64 time ++ cache.sha256 (freshnessBody serial active time)))) := by
      simp [writeFreshness, freshnessBody]
    rw [hread]
    exact take_append _ _ _ rfl
  have hstored : (cache.sha256 (freshnessBody serial active time)).take 32 =
      cache.sha256 (freshnessBody serial active time) :=
    take_of_length_le (hdigest _).le
  have hbody : (cache.writeFreshness serial active time).take
      ((cache.writeFreshness serial active time).length -
      (cache.sha256 (freshnessBody serial active time)).length) =
      freshnessBody serial active time := by
    rw [writeFreshness, length_append, Nat.add_sub_cancel, take_left]
  unfold readFreshness
  rw [bind_eq_bind, bind_some, if_neg (not_not.mpr hlen), hmagic]
  dsimp only [Except.toOption, bind_eq_bind, bind_some]
  rw [readSerial_writeSerial]
  dsimp only [bind_some]
  rw [take_append _ _ _ hactive]
  dsimp only [bind_some]
  rw [if_neg (by simp), u64_be64]
  dsimp only [bind_some]
  rw [hbody, hstored, if_pos rfl]

end Restoring

section Commit

variable {platform : Platform} {cache : ZonePersistence} {zoneApex : DomainName} {qclass : UInt16}
  {files result : CacheFiles} {live : Option (ZoneSnapshot platform)}
  {snapshot : ZoneSnapshot platform} {now : UInt64} {staged : StagedZoneCache}

/-- The files are empty, or hold the live zone up to the times to live of signatures. -/
def Sound (cache : ZonePersistence) (zoneApex : DomainName) (qclass : UInt16) (files : CacheFiles) :
    Option (ZoneSnapshot platform) → Prop
  | none => files = ⟨none, none, none⟩
  | some live =>
    ∃ base entries active,
      Kept SameButSignatureTtl cache zoneApex qclass files live base entries active

theorem Sound.journalFile (h : Sound cache zoneApex qclass files live) {bytes : List UInt8}
    (hbytes : files.journal = some bytes) :
    ∃ journal payload, JournalFile cache zoneApex journal payload bytes := by
  cases live with
  | none =>
    obtain rfl : files = ⟨none, none, none⟩ := h
    cases hbytes
  | some live =>
    obtain ⟨base, entries, active, hkept⟩ := h
    have hjournal := hkept.holding.journal
    rw [hbytes] at hjournal
    cases hjournal with
    | stale file => exact ⟨_, _, file⟩
    | current file => exact ⟨_, _, file⟩

/-- The files hold a new generation, and no freshness that was left over says otherwise. -/
structure NewGeneration (cache : ZonePersistence) (zoneApex : DomainName) (qclass : UInt16)
    (snapshot : ZoneSnapshot platform) (now : UInt64) (base : Checkpoint)
    (entries : List JournalEntry) (active : List UInt8) (result : CacheFiles) : Prop where
  kept : Kept SameButSignatureTtl cache zoneApex qclass result snapshot base entries active
  time : recordedTime base entries = now
  freshness : cache.readFreshness snapshot.serial active result.freshness = none

theorem Promoted.readFreshness (h : Promoted files staged result)
    (hunnamed : Unnamed cache files snapshot staged) :
    cache.readFreshness snapshot.serial (digestOf staged) result.freshness = none := by
  rcases h.freshness with hsame | hnone
  · rw [hsame, ← not_isSome_iff_eq_none]
    exact fun hsome => hunnamed (.inr hsome)
  · rw [hnone]
    rfl

/-- A checkpoint in place of the one before: a journal that is still there belongs to another. -/
theorem newGeneration_of_full (hdigest : cache.DigestLength)
    (h : Sound cache zoneApex qclass files live) (hvalid : Validated zoneApex qclass snapshot)
    (hstage : cache.stage now snapshot = .ok staged)
    (hunnamed : Unnamed cache files snapshot staged) (hpromoted : Promoted files staged result) :
    NewGeneration cache zoneApex qclass snapshot now (checkpointOf now snapshot) []
      (digestOf staged) result := by
  obtain ⟨bytes, rfl, hfile⟩ := checkpointFile_of_stage hvalid hstage
  have hdigestOf : digestOf ⟨.checkpoint, bytes, true⟩ =
      cache.sha256 (checkpointOf now snapshot).body := by
    rw [digestOf, hfile.written]
    exact (drop_digest hdigest _).1
  have hjournal : JournalState cache zoneApex (checkpointOf now snapshot) result.journal []
      (cache.sha256 (checkpointOf now snapshot).body) := by
    cases hold : result.journal with
    | none => exact .absent
    | some journal =>
      rcases hpromoted.journal with hsame | ⟨-, hnone⟩
      · have hbefore : files.journal = some journal := hsame.symm.trans hold
        obtain ⟨decoded, payload, hdecoded⟩ := h.journalFile hbefore
        exact .stale hdecoded fun hnamed => hunnamed (.inl ⟨_, _, _, _, hbefore,
          hdecoded.readJournalBytes hdigest hvalid.origin, hnamed.trans hdigestOf.symm⟩)
      · exact absurd (hnone.symm.trans hold) (by simp)
  have hfresh := hpromoted.readFreshness hunnamed
  rw [hdigestOf] at hfresh ⊢
  obtain ⟨_, -, hcontent⟩ := hvalid.content
  refine ⟨kept_of_checkpoint (fun _ _ => And.left) hvalid (fun key rrset hlook => ?_)
    ⟨⟨bytes, hpromoted.checkpoint, hfile⟩, hjournal⟩, rfl, hfresh⟩
  exact sameButSignatureTtl_settledRrset key.owner (hcontent.stored key rrset hlook).nonempty

/-- Once the staged file is in its place the files hold the new generation. -/
theorem Sound.commit (hdigest : cache.DigestLength) (h : Sound cache zoneApex qclass files live)
    (hstages : Stages cache zoneApex qclass files live snapshot now staged)
    (hunnamed : Unnamed cache files snapshot staged) :
    staged.finalPath ≠ .freshness ∧ ∃ base entries, ∀ result, Promoted files staged result →
      NewGeneration cache zoneApex qclass snapshot now base entries (digestOf staged) result := by
  cases hstages with
  | full hvalid _ hstage =>
    obtain ⟨bytes, hstaged, -⟩ := checkpointFile_of_stage hvalid hstage
    exact ⟨by rw [hstaged]; simp, _, _, fun result hpromoted =>
      newGeneration_of_full hdigest h hvalid hstage hunnamed hpromoted⟩
  | incremental htransfer hadvances hstage =>
    have hsound := h
    obtain ⟨base, entries, active, hkept⟩ := h
    have hvalid := validated_of_ixfr hkept.validated htransfer
    rcases stageIncremental_spec hdigest hkept.holding hvalid hkept.validated
      (soundLineage_of_ixfr htransfer)
      hkept.base_serial hstage with hfull | ⟨oldSerial, newSerial, changes, journal, payload, bytes,
      hold, hnew, hchanges, rfl,
        hfile, hcontinues, hentries⟩
    · obtain ⟨bytes, hstaged, -⟩ := checkpointFile_of_stage hvalid hfull
      exact ⟨by rw [hstaged]; simp, _, _, fun result hpromoted =>
        newGeneration_of_full hdigest hsound hvalid hfull hunnamed hpromoted⟩
    · have hdigestOf : digestOf ⟨.journal, bytes, false⟩ = cache.sha256 payload := by
        rw [digestOf, hfile.sealed]
        exact (drop_digest hdigest _).1
      refine ⟨by simp, base, entries ++ [⟨oldSerial, newSerial, now, changes⟩],
        fun result hpromoted => ?_⟩
      have hjournal : result.journal = some bytes := by
        rcases hpromoted.journal with hsame | ⟨hremove, -⟩
        · exact hsame
        · cases hremove
      have hholding : Holding cache zoneApex result base journal.entries
          (cache.sha256 payload) := by
        refine ⟨hpromoted.checkpoint ▸ hkept.holding.checkpoint, ?_⟩
        rw [hjournal]
        exact .current hfile hcontinues.same hcontinues.serial
      rw [hentries, ← hdigestOf] at hholding
      refine ⟨hkept.journal SameButSignatureTtl.refl (fun _ _ => And.left) hvalid hadvances hold
        hnew hchanges hholding, ?_, hpromoted.readFreshness hunnamed⟩
      rw [recordedTime, List.getLast?_concat]
      rfl

variable {entries : List JournalEntry} {active : List UInt8} {base : Checkpoint}

theorem length_active (hdigest : cache.DigestLength)
    (h : Holding cache zoneApex files base entries active) : active.length = 32 := by
  obtain ⟨checkpoint, journal, freshness⟩ := files
  cases h.journal with
  | absent => exact hdigest _
  | stale => exact hdigest _
  | current => exact hdigest _

/-- Renewing the freshness is one step, which keeps the generation. -/
theorem Kept.renew (hdigest : cache.DigestLength) {zone : ZoneSnapshot platform}
    {steps : List FileStep}
    (h : Kept SameButSignatureTtl cache zoneApex qclass files zone base entries active)
    (hrenew : cache.renewFreshness now zone.origin zone.serial files = .ok steps) :
    steps = [.rename .freshness (cache.writeFreshness zone.serial active now)] ∧
      Kept SameButSignatureTtl cache zoneApex qclass
        { files with freshness := some (cache.writeFreshness zone.serial active now) }
        zone base entries active := by
  unfold renewFreshness at hrenew
  rw [h.holding.activeCacheChecksum hdigest h.validated.origin, ok_bind_eq] at hrenew
  exact ⟨(ok.inj hrenew).symm, ⟨h.holding.checkpoint, h.holding.journal⟩, h.validated, h.replays⟩

theorem Reachable.sound (hdigest : cache.DigestLength)
    (h : Reachable cache zoneApex qclass (Unnamed cache) files live) :
    Sound cache zoneApex qclass files live := by
  induction h with
  | empty => rfl
  | @operate files result live operation first rest _ henabled hsteps hinterrupted ih =>
    cases henabled with
    | publish hstages hunnamed =>
      obtain ⟨hfile, base, entries, hnew⟩ := ih.commit hdigest hstages hunnamed
      have hfirst : first = .rename _ _ := (List.cons.inj hsteps).1.symm
      have hrest := (List.cons.inj hsteps).2
      rw [hfirst, ← hrest] at hinterrupted
      exact ⟨base, entries, _, (hnew result (Promoted.of_cleanup hfile hinterrupted)).kept⟩
    | renew hrenew =>
      obtain ⟨base, entries, active, hkept⟩ := ih
      obtain ⟨hwritten, hnext⟩ := hkept.renew hdigest hrenew
      have hall := hsteps.symm.trans hwritten
      rw [(List.cons.inj hall).1, (List.cons.inj hall).2] at hinterrupted
      cases hinterrupted
      exact ⟨base, entries, active, hnext⟩
  | restart _ horigin hrestores ih =>
    rename_i files live identity now expectedOrigin restored hbefore
    cases live with
    | none =>
      obtain rfl : files = ⟨none, none, none⟩ := ih
      exact absurd hrestores (by simp [ZonePersistence.restore])
    | some zone =>
      obtain ⟨base, entries, active, hkept⟩ := ih
      obtain ⟨snapshot, -, hrestore, hmirrors⟩ := hkept.restore hdigest horigin identity now
      obtain rfl := some.inj (ok.inj (hrestores.symm.trans hrestore))
      have hlive := mirrors_restoredAt hmirrors now
        (max ((cache.readFreshness zone.serial active files.freshness).getD
        (recordedTime base entries))
          (recordedTime base entries))
      refine ⟨base, entries, active, hkept.holding, hlive.validated, fun other => ?_⟩
      obtain ⟨replayed, time, hreplay, hsame⟩ := hkept.replays other
      exact ⟨replayed, time, hreplay, hsame.of_both hlive⟩

/-- What is restored has the content of the zone, up to the times to live of signatures. -/
def Restores (zoneApex : DomainName) (qclass : UInt16) (restored : RestoredZone platform)
    (zone : ZoneSnapshot platform) : Prop :=
  Mirrors SameButSignatureTtl zoneApex qclass restored.snapshot zone

theorem max_self_u64 (time : UInt64) : max time time = time := by
  exact ite_self time

theorem max_le_max_u64 {first second third : UInt64} :
    max first second ≤ max first (max third second) := by
  show (if first ≤ second then second else first) ≤
    (if first ≤ (if third ≤ second then second else third) then (if third ≤
    second then second else third) else first)
  simp only [UInt64.le_iff_toNat_le]
  split_ifs <;> omega

variable {expectedOrigin : DomainName}

theorem Sound.restores (hdigest : cache.DigestLength) (h : Sound cache zoneApex qclass files live)
    (horigin : expectedOrigin.canonicalKey = zoneApex.canonicalKey) (identity : ℕ)
    (now : UInt64) : ∃ before, cache.restore identity now expectedOrigin qclass files = .ok before ∧
      Option.Rel (Restores zoneApex qclass) before live := by
  cases live with
  | none =>
    obtain rfl : files = ⟨none, none, none⟩ := h
    exact ⟨none, rfl, .none⟩
  | some zone =>
    obtain ⟨base, entries, active, hkept⟩ := h
    obtain ⟨snapshot, -, hrestore, hmirrors⟩ := hkept.restore hdigest horigin identity now
    exact ⟨_, hrestore, .some (mirrors_restoredAt hmirrors _ _)⟩

/-- A new generation is restored as it was staged, whatever the cleanup left. -/
theorem NewGeneration.restore (hdigest : cache.DigestLength) {staging : UInt64}
    (h : NewGeneration cache zoneApex qclass snapshot staging base entries active result)
    (horigin : expectedOrigin.canonicalKey = zoneApex.canonicalKey) (identity : ℕ) (now : UInt64) :
    ∃ built, replay identity qclass base entries = .ok (built, staging) ∧
      cache.restore identity now expectedOrigin qclass result = .ok
        (some (restoredAt now built staging)) ∧
      Mirrors SameButSignatureTtl zoneApex qclass built snapshot := by
  obtain ⟨built, hreplay, hrestore, hmirrors⟩ := h.kept.restore hdigest horigin identity now
  rw [h.freshness, h.time, getD_none, max_self_u64] at hrestore
  exact ⟨built, h.time ▸ hreplay, hrestore, hmirrors⟩

/-- An operation that is cut short leaves the generation from before or the new one. -/
theorem restore_of_interrupted (hdigest : cache.DigestLength)
    (hreachable : Reachable cache zoneApex qclass (Unnamed cache) files live)
    {operation : Operation platform}
    (henabled : Enabled cache zoneApex qclass (Unnamed cache) files live operation)
    (hinterrupted : Interrupted operation.steps files result) {expectedOrigin : DomainName}
    (horigin : expectedOrigin.canonicalKey = zoneApex.canonicalKey) (identity : ℕ) (now : UInt64) :
    ∃ before after, cache.restore identity now expectedOrigin qclass files = .ok before ∧
      cache.restore identity now expectedOrigin qclass
        (operation.steps.foldl FileStep.apply files) = .ok (some after) ∧
      (cache.restore identity now expectedOrigin qclass result = .ok before ∨
        cache.restore identity now expectedOrigin qclass result = .ok (some after)) ∧
      Option.Rel (Restores zoneApex qclass) before live ∧
      Option.Rel (Restores zoneApex qclass) (some after) (operation.liveAfter live) ∧
      after.persistedUnixSecs ≤ operation.recorded
        (before.elim 0 RestoredZone.persistedUnixSecs) := by
  have hsound := hreachable.sound hdigest
  obtain ⟨before, hbefore, hlive⟩ := hsound.restores hdigest horigin identity now
  cases henabled with
  | @publish _ zone staging staged hstages hunnamed =>
    obtain ⟨hfile, base, entries, hnew⟩ := hsound.commit hdigest hstages hunnamed
    have hdone := hnew _ (Promoted.of_cleanup hfile (interrupted_foldl _ _))
    obtain ⟨built, hreplay, hcompleted, hmirrors⟩ := hdone.restore hdigest horigin identity now
    refine ⟨before, restoredAt now built staging, hbefore, hcompleted, ?_, hlive,
      .some (mirrors_restoredAt hmirrors _ _), ?_⟩
    · rcases hinterrupted.of_promote hfile with rfl | hpromoted
      · exact .inl hbefore
      · obtain ⟨other, hother, hresult, -⟩ :=
          (hnew result hpromoted).restore hdigest horigin identity now
        obtain rfl : built = other := congrArg Prod.fst (ok.inj (hreplay.symm.trans hother))
        exact .inr hresult
    · rw [persistedUnixSecs_restoredAt]
      exact UInt64.le_refl _
  | @renew zone renewal steps hrenew =>
    obtain ⟨base, entries, active, hkept⟩ := hsound
    obtain ⟨rfl, hnext⟩ := hkept.renew hdigest hrenew
    obtain ⟨old, hreplayOld, hrestoreOld, -⟩ := hkept.restore hdigest horigin identity now
    obtain ⟨built, hreplay, hrestore, hmirrors⟩ := hnext.restore hdigest horigin identity now
    rw [readFreshness_writeFreshness hdigest (length_active hdigest hkept.holding),
      getD_some] at hrestore
    refine ⟨before, _, hbefore, hrestore, ?_, hlive, .some (mirrors_restoredAt hmirrors _ _), ?_⟩
    · cases hinterrupted with
      | stop => exact .inl hbefore
      | step next =>
        cases next
        exact .inr hrestore
    · obtain rfl := ok.inj (hbefore.symm.trans hrestoreOld)
      rw [persistedUnixSecs_restoredAt]
      show _ ≤ max renewal (restoredAt now old _).persistedUnixSecs
      rw [persistedUnixSecs_restoredAt]
      exact max_le_max_u64

end Commit

/-- The checkpoint of a snapshot, staged at second five. -/
def sampleCheckpoint (snapshot : ZoneSnapshot plainPlatform) : StagedZoneCache :=
  ⟨.checkpoint, (checkpointOf 5 snapshot).write sampleDigest, true⟩

def bytesOf : Outcome ZonePersistenceError StagedZoneCache → List UInt8
  | .ok staged => staged.bytes
  | _ => []

/-- The journal of the difference, on the checkpoint of the zone before it. -/
def sampleJournal : StagedZoneCache :=
  ⟨.journal,
    bytesOf (sampleCache.stageIncremental 5 (filesOf 5 sampleBefore) sampleBefore sampleAfter),
    false⟩

theorem stage_sampleBefore :
    sampleCache.stage 5 sampleBefore = .ok (sampleCheckpoint sampleBefore) := by decide +kernel

theorem stages_sampleJournal :
    Stages sampleCache sampleApex 1 (filesOf 5 sampleBefore)
      (some sampleBefore) sampleAfter 5 sampleJournal :=
  .incremental sampleTransfer_eq advances_sample (by decide +kernel)

/-- The first checkpoint, and the journal on it cut short before its cleanup. -/
theorem restore_of_interrupted_sample :
    Reachable sampleCache sampleApex 1 (Unnamed sampleCache) (filesOf 5 sampleBefore)
      (some sampleBefore) ∧
      ∃ (before : Option (RestoredZone plainPlatform)) (after : RestoredZone plainPlatform),
        sampleCache.restore 0 7 sampleApex 1 (filesOf 5 sampleBefore) = .ok before ∧
        sampleCache.restore 0 7 sampleApex 1
          (sampleJournal.promote.foldl FileStep.apply (filesOf 5 sampleBefore)) = .ok (some after) ∧
        (sampleCache.restore 0 7 sampleApex 1 ((filesOf 5 sampleBefore).put .journal
          (some sampleJournal.bytes)) = .ok before ∨
          sampleCache.restore 0 7 sampleApex 1
            ((filesOf 5 sampleBefore).put .journal (some sampleJournal.bytes)) =
            .ok (some after)) := by
  have hunnamed : ∀ (snapshot : ZoneSnapshot plainPlatform) (staged : StagedZoneCache)
      (checkpoint : Option (List UInt8)),
      Unnamed sampleCache ⟨checkpoint, none, none⟩ snapshot staged := by
    rintro snapshot staged checkpoint (⟨bytes, _, _, _, hbytes, -⟩ | hsome)
    · cases hbytes
    · exact absurd hsome (by simp [readFreshness])
  have hfirst : Enabled sampleCache sampleApex 1 (Unnamed sampleCache) ⟨none, none, none⟩ none
      (.publish sampleBefore 5 (sampleCheckpoint sampleBefore)) :=
    .publish (.full validated_sampleBefore (by simp [Admissible]) stage_sampleBefore)
      (hunnamed _ _ _)
  have hreachable := Reachable.operate .empty hfirst rfl (interrupted_foldl _ _)
  have hsecond : Enabled sampleCache sampleApex 1 (Unnamed sampleCache) (filesOf 5 sampleBefore)
      (some sampleBefore)
      (.publish sampleAfter 5 sampleJournal) := .publish stages_sampleJournal (hunnamed _ _ _)
  obtain ⟨before, after, hbefore, hafter, hresult, -⟩ :=
    restore_of_interrupted digestLength_sampleCache hreachable hsecond (.step (.stop _ _)) rfl 0 7
  exact ⟨hreachable, before, after, hbefore, hafter, hresult⟩

/-- A later version of the zone. -/
def sampleLater (serial : UInt32) : ZoneSnapshot plainPlatform :=
  sampleZone serial [sampleSoa serial, sampleNs, sampleAddress 300 1]

theorem admissible_of_serials {live snapshot : ZoneSnapshot plainPlatform}
    {oldSerial newSerial : UInt32} (hold : live.serial = some oldSerial)
    (hnew : snapshot.serial = some newSerial) (h : newSerial - oldSerial < 0x80000000) :
    Admissible (some live) snapshot := by
  intro previous hprev old new hfirst hsecond
  obtain rfl := some.inj hprev
  rw [some.inj (hfirst.symm.trans hold), some.inj (hsecond.symm.trans hnew)]
  exact h

/-- The serial that comes back from the files. -/
def restoredSerial (files : CacheFiles) : Option UInt32 :=
  (sampleCache.restore 0 7 sampleApex 1 files : Except ZonePersistenceError
    (Option (RestoredZone plainPlatform)))
    |>.toOption.join.bind fun restored => restored.snapshot.serial

/-- A journal is left behind by the cleanup of later checkpoints. Serials go around, and when the
first checkpoint is staged again within its second, the journal belongs to it once more: the second
version comes back, where a later one was live and the first is being published. -/
theorem restore_mixes_generations :
    ∃ files, Reachable sampleCache sampleApex 1 (fun _ _ _ => True) files
      (some (sampleLater 0xe0000000)) ∧
      Enabled sampleCache sampleApex 1 (fun _ _ _ => True) files (some (sampleLater 0xe0000000))
        (.publish sampleBefore 5 (sampleCheckpoint sampleBefore)) ∧
      Interrupted (sampleCheckpoint sampleBefore).promote files
        (files.put .checkpoint (some (sampleCheckpoint sampleBefore).bytes)) ∧
        restoredSerial files = some 0xe0000000 ∧
      restoredSerial ((sampleCheckpoint sampleBefore).promote.foldl FileStep.apply files) = some 1 ∧
      restoredSerial (files.put .checkpoint (some (sampleCheckpoint sampleBefore).bytes)) = some 2 ∧
      ([(checkpointOf 5 sampleBefore).body, (checkpointOf 5 (sampleLater 0x70000000)).body,
        (checkpointOf 5 (sampleLater 0xe0000000)).body,
        sampleJournal.bytes.take (sampleJournal.bytes.length - 32)].map sampleDigest).Nodup := by
  have hvalid (serial : UInt32)
      (hrecords : axfrZoneRecords 0 sampleApex 1 RecordType.axfr [responseWire RecordType.axfr
          [sampleSoa serial, sampleNs, sampleAddress 300 1, sampleSoa serial]] =
        .ok ([sampleSoa serial, sampleNs, sampleAddress 300 1], some serial))
      (hset : validateZoneRecordSet sampleApex
        [sampleSoa serial, sampleNs, sampleAddress 300 1] = .ok ()) :
      Validated sampleApex 1 (sampleLater serial) :=
    (fullTransfer_of_read 0 _ hrecords hset 0).accepted.validated rfl
  have hvalidThird := hvalid 0x70000000 (by decide +kernel) (by decide +kernel)
  have hvalidFourth := hvalid 0xe0000000 (by decide +kernel) (by decide +kernel)
  have hstageThird : sampleCache.stage 5 (sampleLater 0x70000000) =
      .ok (sampleCheckpoint (sampleLater 0x70000000)) := by decide +kernel
  have hstageFourth : sampleCache.stage 5 (sampleLater 0xe0000000) =
      .ok (sampleCheckpoint (sampleLater 0xe0000000)) := by decide +kernel
  have hafter : sampleAfter.serial = some 2 := by decide +kernel
  have hfirst : Reachable sampleCache sampleApex 1 (fun _ _ _ => True) (filesOf 5 sampleBefore)
      (some sampleBefore) :=
    .operate .empty
      (.publish (.full validated_sampleBefore (by simp [Admissible]) stage_sampleBefore) trivial)
      rfl (interrupted_foldl _ _)
  have hsecond := hfirst.operate (.publish stages_sampleJournal trivial) rfl (interrupted_foldl _ _)
  have hthird := hsecond.operate (.publish (.full hvalidThird
    (admissible_of_serials hafter rfl (by decide)) hstageThird) trivial) rfl (.stop _ _)
  have hfourth := hthird.operate (.publish (.full hvalidFourth
    (admissible_of_serials rfl rfl (by decide)) hstageFourth) trivial) rfl (.stop _ _)
  refine ⟨_, hfourth,
    .publish (.full validated_sampleBefore (admissible_of_serials rfl rfl (by decide))
    stage_sampleBefore) trivial, .step (.stop _ _), ?_, ?_, ?_, ?_⟩
  all_goals decide +kernel

end ZonePersistence

end BoronDns
