import BoronDns.NameKey
import Mathlib.Data.Finset.Basic
import Mathlib.Data.Finset.Dedup

/-!
The queue of the zones that wait for a refresh. A zone waits once: a request for
a zone that waits already is merged into the one in the queue, or takes its place
when it is for a later plan. In a full queue the last request makes room for one
of a zone that is being refreshed. What leaves the queue for another request goes
back with the reason under which its zone is to be tried again.
-/

namespace BoronDns

open List

inductive RefreshReason
  | catalog | controlPlane | notify | scheduled
  deriving DecidableEq

/-- The reservation that suppresses further NOTIFY messages for a zone. -/
structure NotifyDedupCommit where
  signalledAt : ℕ
  tokenId : UInt64
  refreshGeneration : Option UInt64
  planGeneration : Option UInt64
  requestedSerial : Option UInt32
  deriving DecidableEq

structure NotifyDedupToken extends NotifyDedupCommit where
  zone : NameKey
  deriving DecidableEq

structure NotifyRefreshTracker where
  dedupInterval : ℕ
  lastSignalByZone : NameKey → Option NotifyDedupCommit
  commits : UInt64

namespace NotifyRefreshTracker

variable (tracker : NotifyRefreshTracker) (token : NotifyDedupToken) (now : ℕ)

def pruneExpiredAt : NotifyRefreshTracker :=
  { tracker with
    lastSignalByZone := fun zone => (tracker.lastSignalByZone zone).filter fun commit =>
      decide (now - commit.signalledAt < tracker.dedupInterval) }

/-- The token is the one for which its zone is reserved. -/
def holdsToken : Bool :=
  (tracker.lastSignalByZone token.zone).any fun commit =>
    commit.tokenId == token.tokenId && commit.refreshGeneration == token.refreshGeneration &&
      commit.planGeneration == token.planGeneration && commit.requestedSerial ==
      token.requestedSerial

/-- `NotifyDedupToken::commit_at`: at every 256th commit the old reservations go. -/
def commitAt : Bool × NotifyRefreshTracker :=
  let counted := { tracker with commits := tracker.commits + 1 }
  let pruned :=
    if tracker.dedupInterval ≠ 0 ∧ counted.commits % 256 = 0 then counted.pruneExpiredAt now
    else counted
  (pruned.holdsToken token, pruned)

end NotifyRefreshTracker

structure RefreshRequest where
  zone : DomainName
  requestedSerial : Option UInt32
  preferredPrimaryIp : Option (List UInt8)
  reason : RefreshReason
  retryAfterQueueDrop : Option RefreshReason
  notifyDedupToken : Option NotifyDedupToken
  planGeneration : Option UInt64
  deriving DecidableEq

def serialAfter (candidate current : UInt32) : Bool :=
  candidate != current && decide (candidate - current < 0x80000000)

namespace RefreshRequest

def new (zone : DomainName) (requestedSerial : Option UInt32) (reason : RefreshReason) :
    RefreshRequest where
  zone := zone
  requestedSerial := requestedSerial
  preferredPrimaryIp := none
  reason := reason
  retryAfterQueueDrop := if reason = .notify then none else some reason
  notifyDedupToken := none
  planGeneration := none

def withNotifyDedupToken (request : RefreshRequest) (token : NotifyDedupToken) : RefreshRequest :=
  { request with planGeneration := token.planGeneration, notifyDedupToken := some token }

def withPreferredPrimaryIp (request : RefreshRequest) (source : List UInt8) : RefreshRequest :=
  { request with preferredPrimaryIp := some source }

def withPlanGenerationValue (request : RefreshRequest) (generation : UInt64) : RefreshRequest :=
  { request with planGeneration := some generation }

def key (request : RefreshRequest) : NameKey := request.zone.canonicalKey

/-- `commit_notify_dedup_after_queue_admission_at`. -/
def commitNotifyDedup (request : RefreshRequest) (tracker : NotifyRefreshTracker) (now : ℕ) :
    Bool × RefreshRequest × NotifyRefreshTracker :=
  match request.notifyDedupToken with
  | none => (true, request, tracker)
  | some token =>
    let (held, tracker) := tracker.commitAt token now
    if held then
      (true,
        { request with retryAfterQueueDrop := some (request.retryAfterQueueDrop.getD .notify) },
        tracker)
    else
      (false, { request with notifyDedupToken := none }, tracker)

/-- `merge_refresh_request`. -/
def merge (existing incoming : RefreshRequest) : RefreshRequest :=
  let requestedSerial :=
    match existing.requestedSerial, incoming.requestedSerial with
    | some existing, some incoming =>
      some (if serialAfter incoming existing then incoming else existing)
    | _, _ => none
  let retryAfterQueueDrop :=
    if existing.retryAfterQueueDrop = some .catalog ∨
      incoming.retryAfterQueueDrop = some .catalog then some .catalog
    else existing.retryAfterQueueDrop.or incoming.retryAfterQueueDrop
  let merged := { existing with requestedSerial, retryAfterQueueDrop, reason := incoming.reason }
  if incoming.notifyDedupToken.isSome then
    { merged with
      notifyDedupToken := incoming.notifyDedupToken
      planGeneration := incoming.planGeneration
      preferredPrimaryIp := incoming.preferredPrimaryIp }
  else if incoming.reason ≠ .notify then
    { merged with
      notifyDedupToken := none
      planGeneration := incoming.planGeneration
      preferredPrimaryIp := none }
  else
    merged

end RefreshRequest

def notifyRefreshQueueCapacity : ℕ := 1024

structure PendingRefreshes where
  requests : List RefreshRequest
  keys : Finset NameKey
  deriving DecidableEq

namespace PendingRefreshes

def empty : PendingRefreshes := ⟨[], ∅⟩

/-- The request of the zone gives way to another one. -/
def put (pending : PendingRefreshes) (request : RefreshRequest) : PendingRefreshes :=
  { pending with
    requests :=
      pending.requests.set (pending.requests.findIdx fun queued => queued.key ==
        request.key) request }

/-- `enqueue_pending_refresh_request_at`: what is dropped, the queue and the tracker. -/
def enqueueAt (pending : PendingRefreshes) (activeKeys : Finset NameKey) (request : RefreshRequest)
    (tracker : NotifyRefreshTracker) (now : ℕ) :
    Option RefreshRequest × PendingRefreshes × NotifyRefreshTracker :=
  let (committed, admitted, counted) := request.commitNotifyDedup tracker now
  if request.key ∈ pending.keys then
    match pending.requests.find? fun queued => queued.key == request.key with
    | none => (none, pending, tracker)
    | some existing =>
      if !committed then (some admitted, pending, counted)
      else
        match existing.planGeneration, admitted.planGeneration with
        | some existingGeneration, some incomingGeneration =>
          if existingGeneration ≠ incomingGeneration then
            if existingGeneration < incomingGeneration then
              (some existing, pending.put admitted, counted)
            else (some admitted, pending, counted)
          else (none, pending.put (existing.merge admitted), counted)
        | _, _ => (none, pending.put (existing.merge admitted), counted)
  else if notifyRefreshQueueCapacity ≤ pending.requests.length then
    if request.key ∈ activeKeys then
      if !committed then (some admitted, pending, counted)
      else
        match pending.requests.getLast? with
        | none => (some admitted, pending, counted)
        | some evicted =>
          (some evicted,
            ⟨pending.requests.dropLast ++ [admitted],
            insert request.key (pending.keys.erase evicted.key)⟩, counted)
    else (some request, pending, tracker)
  else if !committed then (some admitted, pending, counted)
  else (none, ⟨pending.requests ++ [admitted], insert request.key pending.keys⟩, counted)

end PendingRefreshes

/-- What the scheduler knows of a zone that a dropped request touches. -/
structure ZoneRefreshStatus where
  generation : UInt64
  nextRefresh : Option ℕ
  nextRefreshUnixSecs : Option ℕ
  inProgress : Bool
  deriving DecidableEq

def ZoneRefreshStatus.Overdue (status : ZoneRefreshStatus) (now : ℕ) : Prop :=
  ∃ deadline, status.nextRefresh = some deadline ∧ deadline ≤ now

/-- The statuses of the zones, and the generations of their transfer plans. -/
structure RefreshRegistry where
  statuses : NameKey → Option ZoneRefreshStatus
  plans : NameKey → Option UInt64

namespace RefreshRegistry

variable (registry : RefreshRegistry) (request : RefreshRequest)

def incarnationIsCurrent : Bool :=
  (request.notifyDedupToken.all fun token => token.refreshGeneration.all fun generation =>
    (registry.statuses request.key).any fun status => status.generation == generation) &&
  request.planGeneration.all fun generation => registry.plans request.key == some generation

end RefreshRegistry

/-- The requests the server makes: those of a NOTIFY have a token. -/
inductive SentRequest
  | plain (zone : DomainName) (requestedSerial : Option UInt32) (reason : RefreshReason)
    (other : reason ≠ .notify)
      (generation : Option UInt64)
  | notify (zone : DomainName) (requestedSerial : Option UInt32) (token : NotifyDedupToken)
    (source : List UInt8)

def SentRequest.request : SentRequest → RefreshRequest
  | plain zone requestedSerial reason _ generation =>
    generation.elim (.new zone requestedSerial reason)
      (RefreshRequest.new zone requestedSerial reason).withPlanGenerationValue
  | notify zone requestedSerial token source =>
    ((RefreshRequest.new zone requestedSerial .notify).withNotifyDedupToken
      token).withPreferredPrimaryIp source

/-- What happens to the queue: a request comes, the first one goes to work or is
obsolete, or it has to wait for its zone and goes to the end. -/
inductive QueueStep
  | enqueue (activeKeys : Finset NameKey) (sent : SentRequest) (tracker : NotifyRefreshTracker)
    (now : ℕ)
  | take
  | rotate

def PendingRefreshes.step (pending : PendingRefreshes) : QueueStep → PendingRefreshes
  | .enqueue activeKeys sent tracker now =>
      (pending.enqueueAt activeKeys sent.request tracker now).2.1
  | .take =>
    match pending.requests with
    | [] => pending
    | request :: rest => ⟨rest, pending.keys.erase request.key⟩
  | .rotate =>
    match pending.requests with
    | [] => pending
    | request :: rest => { pending with requests := rest ++ [request] }

def PendingRefreshes.run (steps : List QueueStep) : PendingRefreshes :=
  steps.foldl PendingRefreshes.step .empty

namespace RefreshRequest

variable {request existing incoming : RefreshRequest}

/-- The request as it stands in the queue. -/
def admitted (request : RefreshRequest) : RefreshRequest :=
  if request.notifyDedupToken.isSome then
    { request with retryAfterQueueDrop := some (request.retryAfterQueueDrop.getD .notify) }
  else request

/-- A request without a token can be tried again. -/
def Formed (request : RefreshRequest) : Prop :=
  request.notifyDedupToken = none → request.retryAfterQueueDrop.isSome

theorem commitNotifyDedup_cases (request : RefreshRequest) (tracker : NotifyRefreshTracker)
    (now : ℕ) : (request.commitNotifyDedup tracker now).1 = true ∧
        (request.commitNotifyDedup tracker now).2.1 = request.admitted ∨
      (request.commitNotifyDedup tracker now).1 = false ∧ request.notifyDedupToken.isSome ∧
        (request.commitNotifyDedup tracker now).2.1 =
          { request with notifyDedupToken := none } := by
  unfold commitNotifyDedup admitted
  split
  next htoken => simp [htoken]
  next token htoken =>
    dsimp only
    split <;> simp [htoken]

theorem admitted_key (request : RefreshRequest) : request.admitted.key = request.key := by
  unfold admitted
  split <;> rfl

theorem Formed.retry_admitted (h : request.Formed) :
    request.admitted.retryAfterQueueDrop.isSome := by
  unfold admitted
  split
  · rfl
  next hplain => exact h (Option.not_isSome_iff_eq_none.mp hplain)

/-- What of a merged request is its zone, its retry reason and its serial. -/
theorem merge_spec (existing incoming : RefreshRequest) :
    (existing.merge incoming).key = existing.key ∧
      (existing.merge incoming).retryAfterQueueDrop =
        (if existing.retryAfterQueueDrop = some .catalog ∨
          incoming.retryAfterQueueDrop = some .catalog then some .catalog
        else existing.retryAfterQueueDrop.or incoming.retryAfterQueueDrop) ∧
      (existing.merge incoming).requestedSerial =
        match existing.requestedSerial, incoming.requestedSerial with
        | some existing, some incoming => some
          (if serialAfter incoming existing then incoming else existing)
        | _, _ => none := by
  unfold merge
  dsimp only
  split
  · exact ⟨rfl, rfl, rfl⟩
  · split <;> exact ⟨rfl, rfl, rfl⟩

theorem retry_merge (h : existing.retryAfterQueueDrop.isSome) :
    (existing.merge incoming).retryAfterQueueDrop.isSome := by
  rw [(merge_spec existing incoming).2.1]
  split
  · rfl
  · simp [h]

end RefreshRequest

namespace RefreshRegistry

variable {registry : RefreshRegistry} {now : ℕ}

/-- The request is of the current incarnation of its zone, and if it is to be tried again as the
scheduler's, the deadline of the zone has passed. -/
structure Retriable (registry : RefreshRegistry) (now : ℕ) (request : RefreshRequest) : Prop where
  current : registry.incarnationIsCurrent request = true
  overdue : request.retryAfterQueueDrop = some .scheduled →
    ∀ status ∈ registry.statuses request.key, status.Overdue now

theorem Retriable.admitted {request : RefreshRequest} (h : registry.Retriable now request) :
    registry.Retriable now request.admitted := by
  unfold RefreshRequest.admitted
  split
  · refine ⟨h.current, fun hretry => h.overdue ?_⟩
    cases hreason : request.retryAfterQueueDrop <;> simp_all
  · exact h

/-- A merged request has its incarnation from one of its parts, and the retry reason from the first
unless one is of a catalog. -/
theorem Retriable.merge {existing incoming : RefreshRequest} (h : registry.Retriable now existing)
    (hincoming : registry.Retriable now incoming) (hkey : existing.key = incoming.key)
    (hretry : existing.retryAfterQueueDrop.isSome) :
    registry.Retriable now (existing.merge incoming) := by
  obtain ⟨hname, hreason, -⟩ := RefreshRequest.merge_spec existing incoming
  constructor
  · have hsame : registry.incarnationIsCurrent { incoming with zone := existing.zone } = true := by
      have hcur := hincoming.current
      unfold incarnationIsCurrent at hcur ⊢
      rw [← hkey] at hcur
      exact hcur
    unfold RefreshRequest.merge
    dsimp only
    split
    · exact hsame
    · split
      · exact (Bool.and_eq_true_iff.mp hsame).2
      · exact h.current
  · rw [hreason, hname]
    split
    · nofun
    · rw [Option.or_of_isSome hretry]
      exact h.overdue

end RefreshRegistry

theorem SentRequest.formed (sent : SentRequest) : sent.request.Formed := by
  cases sent with
  | plain zone requestedSerial reason other generation =>
    intro _
    cases generation <;>
      simp [SentRequest.request, RefreshRequest.new, RefreshRequest.withPlanGenerationValue, other]
  | notify zone requestedSerial token source =>
    intro h
    cases h

/-- Among serials of one half of the circle, the later one is the one farther from its start. -/
theorem serialAfter_iff {base left right : UInt32} (hleft : (left - base).toNat < 2 ^ 31)
    (hright : (right - base).toNat < 2 ^ 31) :
    serialAfter left right = true ↔ (right - base).toNat < (left - base).toNat := by
  have hl := left.toNat_lt
  have hr := right.toNat_lt
  simp only [serialAfter, Bool.and_eq_true, bne_iff_ne, ne_eq, decide_eq_true_eq,
    UInt32.lt_iff_toNat_lt, ← UInt32.toNat_inj, UInt32.toNat_sub,
    UInt32.reduceToNat] at hleft hright ⊢
  omega

/-- A merged request asks for no serial as soon as one of its parts does, and else for one
that no part's serial is after. -/
structure MergedSerial (parts : List RefreshRequest) (merged : RefreshRequest) : Prop where
  unconditional : (∃ part ∈ parts, part.requestedSerial = none) → merged.requestedSerial = none
  latest : (∀ part ∈ parts, part.requestedSerial.isSome) →
    ∃ serial, merged.requestedSerial = some serial ∧
    (∃ part ∈ parts, part.requestedSerial = some serial) ∧
      ∀ base : UInt32, (∀ part ∈ parts, ∀ serial ∈ part.requestedSerial,
      (serial - base).toNat < 2 ^ 31) →
        ∀ part ∈ parts, ∀ other ∈ part.requestedSerial, serialAfter other serial = false

theorem MergedSerial.merge {parts : List RefreshRequest} {merged : RefreshRequest}
    (h : MergedSerial parts merged) (incoming : RefreshRequest) :
    MergedSerial (parts ++ [incoming]) (merged.merge incoming) := by
  refine ⟨?_, ?_⟩
  · rintro ⟨part, hpart, hnone⟩
    rw [(RefreshRequest.merge_spec ..).2.2]
    rcases mem_append.mp hpart with hold | hnew
    · rw [h.unconditional ⟨part, hold, hnone⟩]
    · rw [mem_singleton.mp hnew] at hnone
      rw [hnone]
      cases merged.requestedSerial <;> rfl
  · intro hall
    obtain ⟨serial, hserial, hfrom, hlatest⟩ :=
      h.latest fun part hpart => hall part (mem_append_left _ hpart)
    obtain ⟨arrived, harrived⟩ := Option.isSome_iff_exists.mp (hall incoming (by simp))
    refine ⟨if serialAfter arrived serial then arrived else serial, ?_, ?_, ?_⟩
    · rw [(RefreshRequest.merge_spec ..).2.2, hserial, harrived]
    · split
      · exact ⟨incoming, by simp, harrived⟩
      · obtain ⟨part, hpart, hsame⟩ := hfrom
        exact ⟨part, mem_append_left _ hpart, hsame⟩
    · intro base hbase part hpart other hother
      obtain ⟨first, hfirst, hsame⟩ := hfrom
      have hserialBase := hbase first (mem_append_left _ hfirst) serial hsame
      have harrivedBase := hbase incoming (by simp) arrived harrived
      have hotherBase := hbase part hpart other hother
      have hbefore : other = arrived ∨ serialAfter other serial = false := by
        rcases mem_append.mp hpart with hold | hnew
        · exact Or.inr (hlatest base (fun part hpart => hbase part (mem_append_left _ hpart)) part
            hold other hother)
        · rw [mem_singleton.mp hnew, Option.mem_def, harrived] at hother
          exact Or.inl (Option.some.inj hother).symm
      rw [Bool.eq_false_iff, ne_eq, serialAfter_iff hotherBase (by split <;> assumption)]
      rw [Bool.eq_false_iff, ne_eq, serialAfter_iff hotherBase hserialBase] at hbefore
      have hlater := @serialAfter_iff base arrived serial harrivedBase hserialBase
      split
      next hafter =>
        have := hlater.mp hafter
        rcases hbefore with rfl | hbefore <;> omega
      next hafter =>
        rw [hlater] at hafter
        rcases hbefore with rfl | hbefore <;> omega

namespace PendingRefreshes

variable {pending after : PendingRefreshes} {request new : RefreshRequest}
  {returned old : Option RefreshRequest} {front back : List RefreshRequest} {keys : Finset NameKey}

/-- The keys are those of the requests, no zone waits twice, there is room for all, and
every request can be tried again. -/
structure Valid (pending : PendingRefreshes) : Prop where
  keys : pending.keys = (pending.requests.map RefreshRequest.key).toFinset
  nodup : (pending.requests.map RefreshRequest.key).Nodup
  room : pending.requests.length ≤ notifyRefreshQueueCapacity
  retry : ∀ queued ∈ pending.requests, queued.retryAfterQueueDrop.isSome

theorem Valid.mem_keys (h : pending.Valid) {key : NameKey} :
    key ∈ pending.keys ↔ ∃ queued ∈ pending.requests, queued.key = key := by
  rw [h.keys, mem_toFinset, mem_map]

/-- The keys without those of a request that leaves. -/
def keysWithout (keys : Finset NameKey) (old : Option RefreshRequest) : Finset NameKey :=
  old.elim keys fun request => keys.erase request.key

theorem Valid.remove (h : pending.Valid)
    (hsplit : pending.requests = front ++ (old.toList ++ back)) :
    Valid ⟨front ++ back, keysWithout pending.keys old⟩ ∧ ∀ existing ∈ old,
      existing.key ∉ keysWithout pending.keys old := by
  cases old with
  | none => exact ⟨by rw [← show pending.requests = front ++ back from hsplit]; exact h, by simp⟩
  | some existing =>
    have hmem : ∀ queued, queued ∈ front ++ back → queued ∈ pending.requests := by
      intro queued hqueued
      rw [hsplit]
      simp only [mem_append, Option.toList_some] at hqueued ⊢
      tauto
    have hperm : pending.requests.Perm (existing :: (front ++ back)) := hsplit ▸ perm_middle
    have hkeys := hperm.map RefreshRequest.key
    have hnodup := hkeys.nodup_iff.mp h.nodup
    rw [map_cons, nodup_cons] at hnodup
    refine ⟨⟨?_, hnodup.2, ?_, fun queued hqueued => h.retry queued (hmem queued hqueued)⟩, ?_⟩
    · rw [keysWithout, Option.elim_some, h.keys, toFinset_eq_of_perm _ _ hkeys, map_cons,
        toFinset_cons, Finset.erase_insert (by rw [mem_toFinset]; exact hnodup.1)]
    · have hroom := h.room
      rw [hperm.length_eq, length_cons] at hroom
      exact Nat.le_of_succ_le hroom
    · rintro _ ⟨⟩
      exact Finset.notMem_erase _ _

theorem Valid.place (h : Valid ⟨front ++ back, keys⟩)
    (hroom : (front ++ back).length < notifyRefreshQueueCapacity)
    (hfresh : new.key ∉ keys) (hretry : new.retryAfterQueueDrop.isSome) :
    Valid ⟨front ++ new :: back, insert new.key keys⟩ := by
  have hperm : (front ++ new :: back).Perm (new :: (front ++ back)) := perm_middle
  have hkeys := hperm.map RefreshRequest.key
  have hsame : keys = ((front ++ back).map RefreshRequest.key).toFinset := h.keys
  rw [hsame, mem_toFinset] at hfresh
  refine ⟨?_, ?_, ?_, fun queued hqueued => ?_⟩
  · rw [toFinset_eq_of_perm _ _ hkeys, map_cons, toFinset_cons, hsame]
  · rw [hkeys.nodup_iff, map_cons, nodup_cons]
    exact ⟨hfresh, h.nodup⟩
  · rw [hperm.length_eq]
    exact hroom
  · rcases mem_cons.mp (hperm.mem_iff.mp hqueued) with rfl | hold
    · exact hretry
    · exact h.retry queued hold

/-- What a call may do: answer with a request of the zone, or take the request in, in the
place of another one or merged with it. -/
inductive Enqueued (pending : PendingRefreshes) (request : RefreshRequest) :
    Option RefreshRequest → PendingRefreshes → Prop
  | refused {back : RefreshRequest} (same : back.key = request.key)
      (retry : back.retryAfterQueueDrop.isSome ∨ request.notifyDedupToken.isSome)
      (content : back = request ∨ back = request.admitted ∨
        back = { request with notifyDedupToken := none }) :
      Enqueued pending request (some back) pending
  | placed {front back : List RefreshRequest} {old returned : Option RefreshRequest}
      {new : RefreshRequest} (split : pending.requests = front ++ (old.toList ++ back))
      (room : (front ++ back).length < notifyRefreshQueueCapacity) (fresh : request.key ∉
      keysWithout pending.keys old) (content : new = request.admitted ∧ returned = old ∨
        ∃ existing, old = some existing ∧ existing.key = request.key ∧
        new = existing.merge request.admitted ∧
          returned = none) :
      Enqueued pending request returned ⟨front ++ new :: back,
      insert request.key (keysWithout pending.keys old)⟩

/-- A request that takes the place of the one of its zone, or is merged with it. -/
theorem Valid.enqueued_put (h : pending.Valid) {existing : RefreshRequest}
    (hmem : existing ∈ pending.requests) (hkey : existing.key = request.key)
    (hnew : new.key = request.key) (hplaced : new = request.admitted ∧ returned = some existing ∨
      new = existing.merge request.admitted ∧ returned = none) :
    Enqueued pending request returned (pending.put new) := by
  obtain ⟨front, back, hsplit⟩ := append_of_mem hmem
  have hremoved := @Valid.remove _ (some existing) _ _ h hsplit
  have hfresh := hremoved.2 existing rfl
  have hfront : ∀ queued ∈ front, (queued.key == new.key) = false := by
    intro queued hqueued
    rw [beq_eq_false_iff_ne, hnew, ← hkey]
    exact fun hsame => hfresh (hremoved.1.mem_keys.mpr ⟨queued, mem_append_left _ hqueued, hsame⟩)
  have hindex : pending.requests.findIdx (fun queued => queued.key == new.key) = front.length := by
    rw [hsplit, findIdx_append, findIdx_eq_length.mpr hfront, if_neg (lt_irrefl _), findIdx_cons]
    simp [hkey, hnew]
  have hput : pending.put new =
      ⟨front ++ new :: back, insert request.key (keysWithout pending.keys (some existing))⟩ := by
    rw [put, hindex, hsplit, set_append_right _ _ le_rfl, Nat.sub_self, ← hkey, keysWithout,
      Option.elim_some, Finset.insert_erase (h.mem_keys.mpr ⟨existing, hmem, rfl⟩)]
    rfl
  rw [hput]
  refine .placed hsplit ?_ (hkey ▸ hfresh) (hplaced.imp_right fun hmerged => ⟨existing, rfl, hkey,
    hmerged⟩)
  have hroom := h.room
  rw [hsplit] at hroom
  simp only [length_append, length_cons] at hroom ⊢
  omega

theorem Valid.enqueued (h : pending.Valid) (hformed : request.Formed) (activeKeys : Finset NameKey)
    (tracker : NotifyRefreshTracker) (now : ℕ) :
    Enqueued pending request (pending.enqueueAt activeKeys request tracker now).1
      (pending.enqueueAt activeKeys request tracker now).2.1 := by
  have hkey := request.admitted_key
  have hrefused : Enqueued pending request (some request) pending := by
    refine .refused rfl ?_ (Or.inl rfl)
    cases htoken : request.notifyDedupToken with
    | none => exact Or.inl (hformed htoken)
    | some token => exact Or.inr rfl
  have hadmitted : Enqueued pending request (some request.admitted) pending :=
    .refused hkey (Or.inl hformed.retry_admitted) (Or.inr (Or.inl rfl))
  unfold enqueueAt
  have hcases := request.commitNotifyDedup_cases tracker now
  generalize request.commitNotifyDedup tracker now = outcome at hcases ⊢
  obtain ⟨committed, admitted, counted⟩ := outcome
  have huncommitted : committed = false → Enqueued pending request (some admitted) pending := by
    rintro rfl
    obtain ⟨-, htoken, rfl⟩ := hcases.resolve_left (by simp)
    exact .refused rfl (Or.inr htoken) (Or.inr (Or.inr rfl))
  dsimp only
  split
  next hpending =>
    split
    next hfound =>
      obtain ⟨queued, hqueued, hsame⟩ := h.mem_keys.mp hpending
      exact absurd hsame (by simpa using List.find?_eq_none.mp hfound queued hqueued)
    rename_i existing hfound
    have hput := @Valid.enqueued_put pending request
    have hmem := mem_of_find?_eq_some hfound
    have hsame : existing.key = request.key := by simpa using List.find?_some hfound
    split
    next hfailed => exact huncommitted (by simpa using hfailed)
    obtain ⟨-, rfl⟩ := hcases.resolve_right (by simp_all)
    have hmerged :=
      hput h hmem hsame ((RefreshRequest.merge_spec ..).1.trans hsame) (Or.inr ⟨rfl, rfl⟩)
    split
    · split
      · split
        · exact hput h hmem hsame hkey (Or.inl ⟨rfl, rfl⟩)
        · exact hadmitted
      · exact hmerged
    · exact hmerged
  rename_i habsent
  split
  next hfull =>
    split
    · split
      next hfailed => exact huncommitted (by simpa using hfailed)
      obtain ⟨-, rfl⟩ := hcases.resolve_right (by simp_all)
      split
      · exact hadmitted
      next last hlast =>
        have hsplit : pending.requests = pending.requests.dropLast ++ ((some last).toList ++ []) :=
          (dropLast_append_getLast? last hlast).symm
        have hroom := h.room
        refine .placed hsplit ?_ (fun hmem => habsent (Finset.mem_of_mem_erase hmem))
          (Or.inl ⟨rfl, rfl⟩)
        rw [hsplit, length_append] at hroom
        rw [append_nil]
        exact hroom
    · exact hrefused
  next hroom =>
    split
    next hfailed => exact huncommitted (by simpa using hfailed)
    obtain ⟨-, rfl⟩ := hcases.resolve_right (by simp_all)
    exact @Enqueued.placed _ _ _ [] none _ _ (by simp) (by simpa using hroom) habsent
      (Or.inl ⟨rfl, rfl⟩)

theorem Enqueued.valid (h : Enqueued pending request returned after) (hvalid : pending.Valid)
    (hformed : request.Formed) : after.Valid := by
  cases h with
  | refused => exact hvalid
  | @placed front back old _ new hsplit hroom hfresh hnew =>
    have hkey : new.key = request.key ∧ new.retryAfterQueueDrop.isSome := by
      rcases hnew with ⟨rfl, -⟩ | ⟨existing, rfl, hsame, rfl, -⟩
      · exact ⟨request.admitted_key, hformed.retry_admitted⟩
      · refine ⟨(RefreshRequest.merge_spec ..).1.trans hsame,
          RefreshRequest.retry_merge (hvalid.retry _ ?_)⟩
        simp [hsplit]
    rw [← hkey.1] at hfresh ⊢
    exact (hvalid.remove hsplit).1.place hroom hfresh hkey.2

theorem Valid.step (h : pending.Valid) (step : QueueStep) : (pending.step step).Valid := by
  cases step with
  | enqueue activeKeys sent tracker now =>
    exact (h.enqueued sent.formed activeKeys tracker now).valid h sent.formed
  | take =>
    simp only [PendingRefreshes.step]
    split
    · exact h
    next first rest hrequests => exact (@Valid.remove _ (some first) [] _ h hrequests).1
  | rotate =>
    simp only [PendingRefreshes.step]
    split
    · exact h
    next first rest hrequests =>
      have hperm : (rest ++ [first]).Perm pending.requests :=
        hrequests ▸ perm_append_singleton first rest
      refine ⟨?_, (hperm.map _).nodup_iff.mpr h.nodup, hperm.length_eq ▸ h.room,
        fun queued hqueued => h.retry queued (hperm.mem_iff.mp hqueued)⟩
      rw [h.keys]
      exact (toFinset_eq_of_perm _ _ (hperm.map _)).symm

end PendingRefreshes

end BoronDns
