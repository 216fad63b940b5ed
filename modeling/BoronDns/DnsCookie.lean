import BoronDns.Lib.Fields
import BoronDns.RequestSections

/-!
Server cookies and the secrets they are made with. Readers take a snapshot of the two
secrets without a lock; one that finds them due for rotation takes the lock, looks
again and publishes a new pair. A cookie is accepted while its time lies in the
window and its hash was made with one of the two secrets.
-/

namespace BoronDns

open Bytes Fields List

section Rotation

structure DnsCookieSecretState where
  current : List UInt8
  previous : Option (List UInt8)
  generatedAt : ℕ

/-- Where a thread stands in `current_with_generator`. -/
inductive CookiePhase
  | idle
  | loaded (state : DnsCookieSecretState)
  | waiting
  | locked
  | reloaded (state : DnsCookieSecretState)
  | generating (state : DnsCookieSecretState)
  | storing (state : DnsCookieSecretState) (rotated : Bool)
  | finishing (state : DnsCookieSecretState)

/-- The store and its threads, with the states that were published, the last one
first, and those that were returned. -/
structure CookieSystem where
  now : ℕ
  state : DnsCookieSecretState
  holder : Option ℕ
  phases : ℕ → CookiePhase
  published : List (DnsCookieSecretState × Bool)
  returned : List DnsCookieSecretState

/-- Time passes, or a thread takes its next step; `generated` is what its generator
gives when it is called. -/
inductive CookieAction
  | tick (elapsed : ℕ)
  | act (thread : ℕ) (generated : Option (List UInt8))

variable (interval : Option ℕ)

def rotationDue (now : ℕ) (state : DnsCookieSecretState) : Bool :=
  interval.any fun length => decide (length ≤ now - state.generatedAt)

def CookieSystem.enter (system : CookieSystem) (thread : ℕ) (phase : CookiePhase) : CookieSystem :=
  { system with phases := Function.update system.phases thread phase }

def CookieSystem.step (system : CookieSystem) : CookieAction → CookieSystem
  | .tick elapsed => { system with now := system.now + elapsed }
  | .act thread generated =>
    match system.phases thread with
    | .idle => system.enter thread (.loaded system.state)
    | .loaded state =>
      if rotationDue interval system.now state then system.enter thread .waiting
      else { system.enter thread .idle with returned := state :: system.returned }
    | .waiting =>
      if system.holder = none then { system.enter thread .locked with holder := some thread }
      else system
    | .locked => system.enter thread (.reloaded system.state)
    | .reloaded state =>
      system.enter thread (if rotationDue interval system.now state then .generating state
        else .finishing state)
    | .generating state =>
      match generated with
      | some secret => system.enter thread (.storing ⟨secret, some state.current, system.now⟩ true)
      | none => system.enter thread (.storing { state with generatedAt := system.now } false)
    | .storing state rotated =>
      { system.enter thread (.finishing state) with
        state, published := (state, rotated) :: system.published }
    | .finishing state =>
      { system.enter thread .idle with holder := none, returned := state :: system.returned }

def CookieSystem.run (system : CookieSystem) (actions : List CookieAction) : CookieSystem :=
  actions.foldl (CookieSystem.step interval) system

variable (state : DnsCookieSecretState)

def CookieSystem.start : CookieSystem :=
  ⟨state.generatedAt, state, none, fun _ => .idle, [(state, false)], []⟩

/-- A rotation makes the current secret the previous one, an interval after the state
before it. A failed one keeps both secrets. -/
def Follows (new : DnsCookieSecretState × Bool) (old : DnsCookieSecretState) : Prop :=
  old.generatedAt ≤ new.1.generatedAt ∧
    if new.2 then new.1.previous = some old.current ∧ ∀ length ∈ interval,
    old.generatedAt + length ≤ new.1.generatedAt
    else new.1.current = old.current ∧ new.1.previous = old.previous

def rotationTimes (published : List (DnsCookieSecretState × Bool)) : List ℕ :=
  published.filterMap fun entry => if entry.2 then some entry.1.generatedAt else none

/-- What holds of a thread in its phase. From the lock on to its release the state does
not change but by its own hand. -/
def CookiePhase.Fits (system : CookieSystem) (thread : ℕ) : CookiePhase → Prop
  | .idle | .waiting => True
  | .loaded state => state ∈ system.published.map Prod.fst
  | .locked => system.holder = some thread
  | .reloaded state => system.holder = some thread ∧ state = system.state
  | .generating state =>
    system.holder = some thread ∧ state = system.state ∧ rotationDue interval system.now state
  | .storing state rotated =>
    system.holder = some thread ∧ Follows interval (state, rotated) system.state ∧
      state.generatedAt ≤ system.now
  | .finishing state => system.holder = some thread ∧ state ∈ system.published.map Prod.fst

structure CookieSystem.Coherent (system : CookieSystem) : Prop where
  clock : system.state.generatedAt ≤ system.now
  head : ∃ rotated older, system.published = (system.state, rotated) :: older
  chain : system.published.IsChain fun new old => Follows interval new old.1
  spaced : ∀ length ∈ interval, (rotationTimes system.published).Pairwise fun later earlier =>
    earlier + length ≤ later
  recent : ∀ time ∈ rotationTimes system.published, time ≤ system.state.generatedAt
  phases : ∀ thread, (system.phases thread).Fits interval system thread
  returned : ∀ state ∈ system.returned, state ∈ system.published.map Prod.fst

variable {interval} {system after : CookieSystem} {thread : ℕ} {phase : CookiePhase}

/-- A phase fits later on, unless another thread changes the state under its lock. -/
theorem CookiePhase.Fits.keep (h : phase.Fits interval system thread)
    (hnow : system.now ≤ after.now) (hpublished : system.published ⊆ after.published)
    (hheld : system.holder = some thread → after.holder = some thread ∧
      after.state = system.state) :
    phase.Fits interval after thread := by
  have hlisted (state : DnsCookieSecretState) (hstate : state ∈ system.published.map Prod.fst) :
      state ∈ after.published.map Prod.fst := map_subset _ hpublished hstate
  cases phase with
  | idle | waiting => trivial
  | loaded state => exact hlisted state h
  | locked => exact (hheld h).1
  | reloaded state => exact ⟨(hheld h.1).1, h.2.trans (hheld h.1).2.symm⟩
  | generating state =>
    refine ⟨(hheld h.1).1, h.2.1.trans (hheld h.1).2.symm, ?_⟩
    have hdue := h.2.2
    simp only [rotationDue, Option.any_eq_true, decide_eq_true_eq] at hdue ⊢
    exact hdue.imp fun length hlen => ⟨hlen.1, by omega⟩
  | storing state rotated => exact ⟨(hheld h.1).1, (hheld h.1).2 ▸ h.2.1, h.2.2.trans hnow⟩
  | finishing state => exact ⟨(hheld h.1).1, hlisted state h.2⟩

/-- A thread goes on to its next phase. -/
theorem fits_update (h : system.Coherent interval)
    (hphases : after.phases = Function.update system.phases thread phase)
    (hphase : phase.Fits interval after thread) (hnow : system.now = after.now)
    (hpublished : system.published ⊆ after.published)
    (hheld : ∀ other ≠ thread, system.holder = some other → after.holder = some other ∧
      after.state = system.state)
    (other : ℕ) : (after.phases other).Fits interval after other := by
  rw [hphases]
  by_cases hother : other = thread
  · rw [hother, Function.update_self]
    exact hphase
  · rw [Function.update_of_ne hother]
    exact (h.phases other).keep hnow.le hpublished (hheld other hother)

theorem CookieSystem.Coherent.enter (h : system.Coherent interval)
    (hphase : phase.Fits interval (system.enter thread phase) thread) :
    (system.enter thread phase).Coherent interval :=
  ⟨h.clock, h.head, h.chain, h.spaced, h.recent,
    fits_update h rfl hphase rfl (Subset.refl _) fun _ _ hholder => ⟨hholder, rfl⟩, h.returned⟩

/-- The holder of the lock publishes its state. -/
theorem CookieSystem.Coherent.store (h : system.Coherent interval) {state : DnsCookieSecretState}
    {rotated : Bool} (hholder : system.holder = some thread)
    (hfollows : Follows interval (state, rotated) system.state)
    (hclock : state.generatedAt ≤ system.now) :
    CookieSystem.Coherent interval { system.enter thread (.finishing state) with
      state, published := (state, rotated) :: system.published } := by
  obtain ⟨before, older, hhead⟩ := h.head
  have htimes : rotationTimes ((state, rotated) :: system.published) =
      if rotated then state.generatedAt :: rotationTimes system.published
      else rotationTimes system.published := by
    cases rotated <;> rfl
  refine ⟨hclock, ⟨rotated, _, rfl⟩, ?_, fun length hlen => ?_, fun time htime => ?_, ?_,
    fun returned hreturned => ?_⟩
  · have hchain := h.chain
    rw [hhead] at hchain ⊢
    exact .cons_cons hfollows hchain
  · rw [htimes]
    cases rotated with
    | false => exact h.spaced length hlen
    | true =>
      refine pairwise_cons.mpr ⟨fun earlier hearlier => ?_, h.spaced length hlen⟩
      exact (Nat.add_le_add_right (h.recent earlier hearlier) _).trans (hfollows.2.2 length hlen)
  · rw [htimes] at htime
    cases rotated with
    | false => exact (h.recent time htime).trans hfollows.1
    | true =>
      rcases mem_cons.mp htime with rfl | htime
      · exact le_rfl
      · exact (h.recent time htime).trans hfollows.1
  · refine fits_update h rfl ⟨hholder, mem_cons_self ..⟩ rfl (subset_cons_self _ _)
      fun other hother hheld => ?_
    exact absurd (Option.some.inj (hheld.symm.trans hholder)) hother
  · exact mem_cons_of_mem _ (h.returned returned hreturned)

theorem CookieSystem.Coherent.step (h : system.Coherent interval) (action : CookieAction) :
    (system.step interval action).Coherent interval := by
  cases action with
  | tick elapsed =>
    refine ⟨h.clock.trans (Nat.le_add_right _ _), h.head, h.chain, h.spaced, h.recent,
      fun thread => ?_, h.returned⟩
    exact (h.phases thread).keep (Nat.le_add_right _ _) (Subset.refl _) fun hholder =>
      ⟨hholder, rfl⟩
  | act thread generated =>
    obtain ⟨before, older, hhead⟩ := h.head
    have hlisted : system.state ∈ system.published.map Prod.fst := by
      rw [hhead]
      exact mem_cons_self ..
    have hfits := h.phases thread
    unfold CookieSystem.step
    dsimp only
    cases hphase : system.phases thread <;> rw [hphase] at hfits <;> dsimp only
    case idle => exact h.enter hlisted
    case loaded state =>
      split
      · exact h.enter trivial
      · have hidle : (system.enter thread .idle).Coherent interval := h.enter trivial
        refine { hidle with returned := fun other hother => ?_ }
        rcases mem_cons.mp hother with rfl | hother
        · exact hfits
        · exact h.returned other hother
    case waiting =>
      split
      next hfree =>
        refine ⟨h.clock, h.head, h.chain, h.spaced, h.recent, ?_, h.returned⟩
        refine fits_update h rfl rfl rfl (Subset.refl _) fun other _ hother => ?_
        exact absurd (hfree.symm.trans hother) (by simp)
      · exact h
    case locked => exact h.enter ⟨hfits, rfl⟩
    case reloaded state =>
      split
      next hdue => exact h.enter ⟨hfits.1, hfits.2, hdue⟩
      · exact h.enter ⟨hfits.1, hfits.2 ▸ hlisted⟩
    case generating state =>
      obtain ⟨hholder, rfl, hdue⟩ := hfits
      cases generated with
      | none => exact h.enter ⟨hholder, ⟨h.clock, rfl, rfl⟩, le_rfl⟩
      | some secret =>
        refine h.enter ⟨hholder, ⟨h.clock, rfl, fun length hlen => ?_⟩, le_rfl⟩
        obtain rfl : interval = some length := hlen
        have hpassed := of_decide_eq_true hdue
        have hclock := h.clock
        change system.state.generatedAt + length ≤ system.now
        omega
    case storing state rotated => exact h.store hfits.1 hfits.2.1 hfits.2.2
    case finishing state =>
      refine ⟨h.clock, h.head, h.chain, h.spaced, h.recent, ?_, fun other hother => ?_⟩
      · refine fits_update h rfl trivial rfl (Subset.refl _) fun other hother hheld => ?_
        exact absurd (Option.some.inj (hheld.symm.trans hfits.1)) hother
      · rcases mem_cons.mp hother with rfl | hother
        · exact hfits.2
        · exact h.returned other hother

theorem CookieSystem.coherent_run (actions : List CookieAction) :
    ((CookieSystem.start state).run interval actions).Coherent interval := by
  refine foldlRecOn actions _ ?_ fun _ h action _ => h.step action
  exact ⟨le_rfl, ⟨false, [], rfl⟩, .singleton _, fun _ _ => .nil,
    by simp [rotationTimes, CookieSystem.start], fun _ => trivial, by simp [CookieSystem.start]⟩

end Rotation

section Validation

/-- What a cookie is made and checked with; the address is given by its octets. -/
structure ServerCookieContext where
  serverSecret : List UInt8
  previousServerSecret : Option (List UInt8)
  clientIp : List UInt8
  nowUnixSecs : UInt32
  pastWindowSecs : UInt32
  futureWindowSecs : UInt32

/-- `u64::from_le_bytes`. -/
def fromLe64 (bytes : List UInt8) : UInt64 :=
  UInt64.ofNat (bytes.foldr (fun byte value => byte.toNat + 256 * value) 0)

variable (sipHash : UInt64 → UInt64 → List UInt8 → UInt64)

def computeDnsServerCookieWithFields (client cookiePrefix clientIp secret : List UInt8) :
    List UInt8 :=
  let hash :=
    sipHash (fromLe64 (secret.take 8)) (fromLe64 (secret.drop 8))
      (client ++ cookiePrefix ++ clientIp)
  (range 8).map fun index => UInt8.ofNat (hash.toNat / 256 ^ index)

/-- The context that `computeDnsServerCookie` makes a cookie in. -/
def ServerCookieContext.issuing (context : ServerCookieContext) : DnsCookieContext where
  nowUnixSecs := context.nowUnixSecs
  keyedHash client cookiePrefix :=
    computeDnsServerCookieWithFields sipHash client cookiePrefix context.clientIp
      context.serverSecret
  keyedHash_length _ _ := length_map _

def dnsCookieTimestampIsValid (timestamp : UInt32) (context : ServerCookieContext) : Bool :=
  context.nowUnixSecs - timestamp ≤ context.pastWindowSecs || timestamp - context.nowUnixSecs ≤
    context.futureWindowSecs

def dnsCookieHashMatchesSecret (client server secret : List UInt8) (context : ServerCookieContext) :
    Bool :=
  computeDnsServerCookieWithFields sipHash client (server.take 8) context.clientIp secret ==
    server.drop 8

def dnsServerCookieIsValid (cookie : EdnsRequestCookie) (context : ServerCookieContext) : Bool :=
  match cookie.server with
  | none => false
  | some server =>
    if server.length ≠ 16 ∨ server.getD 0 0 ≠ 1 then false
    else if !dnsCookieTimestampIsValid
        (fromBe32 (server.getD 4 0) (server.getD 5 0) (server.getD 6 0) (server.getD 7 0))
        context then false
    else dnsCookieHashMatchesSecret sipHash cookie.client server context.serverSecret context ||
      context.previousServerSecret.any fun secret =>
        dnsCookieHashMatchesSecret sipHash cookie.client server secret context

/-- The clock is in the window around the time of issue, the long way round 2^32 included. -/
def InCookieWindow (issued : UInt32) (context : ServerCookieContext) : Prop :=
  ∃ offset turns : ℤ, -context.futureWindowSecs.toNat ≤ offset ∧
    offset ≤ context.pastWindowSecs.toNat ∧
    (context.nowUnixSecs.toNat : ℤ) = issued.toNat + offset + turns * 2 ^ 32

theorem dnsCookieTimestampIsValid_iff (issued : UInt32) (context : ServerCookieContext) :
    dnsCookieTimestampIsValid issued context ↔ InCookieWindow issued context := by
  have hissued := issued.toNat_lt
  have hnow := context.nowUnixSecs.toNat_lt
  simp only [dnsCookieTimestampIsValid, Bool.or_eq_true, decide_eq_true_eq, UInt32.le_iff_toNat_le,
    UInt32.toNat_sub]
  constructor
  · rintro (hpast | hfuture)
    · exact ⟨((2 ^ 32 - issued.toNat + context.nowUnixSecs.toNat) % 2 ^ 32 : ℕ),
        if issued.toNat ≤ context.nowUnixSecs.toNat then 0 else -1, by omega, by omega,
        by split <;> omega⟩
    · exact ⟨-((2 ^ 32 - context.nowUnixSecs.toNat + issued.toNat) % 2 ^ 32 : ℕ),
        if context.nowUnixSecs.toNat ≤ issued.toNat then 0 else 1, by omega, by omega,
        by split <;> omega⟩
  · rintro ⟨offset, turns, hfuture, hpast, hclock⟩
    by_cases hoffset : 0 ≤ offset <;> omega

variable {sipHash}

theorem dnsServerCookieIsValid_iff {cookie : EdnsRequestCookie} {server : List UInt8}
    (hserver : cookie.server = some server) (context : ServerCookieContext) :
    dnsServerCookieIsValid sipHash cookie context ↔ server.length = 16 ∧ server.getD 0 0 = 1 ∧
      dnsCookieTimestampIsValid
        (fromBe32 (server.getD 4 0) (server.getD 5 0) (server.getD 6 0) (server.getD 7 0)) context ∧
      ∃ secret, (secret = context.serverSecret ∨ context.previousServerSecret = some secret) ∧
        server.drop 8 = computeDnsServerCookieWithFields sipHash cookie.client
          (server.take 8) context.clientIp secret := by
  have hmatches (secret : List UInt8) : dnsCookieHashMatchesSecret sipHash cookie.client server
      secret context ↔
      server.drop 8 = computeDnsServerCookieWithFields sipHash cookie.client
      (server.take 8) context.clientIp secret := by
    rw [dnsCookieHashMatchesSecret, beq_iff_eq]
    exact eq_comm
  rw [dnsServerCookieIsValid, hserver]
  dsimp only
  split
  next hshape =>
    exact ⟨fun h => (by cases h), fun h => absurd h.2.1 (hshape.resolve_left (absurd h.1))⟩
  next hshape =>
    rw [not_or, not_not, not_not] at hshape
    split
    next htime => simp_all
    next htime =>
      rw [Bool.not_eq_true', Bool.not_eq_false] at htime
      simp only [hshape, htime, true_and, Bool.or_eq_true, Option.any_eq_true, hmatches,
        or_and_right, exists_or, exists_eq_left]

end Validation

/-- In every run of the threads the published pairs form one sequence, in which a rotation makes the
current secret the previous one, a failed generator keeps both and two rotations lie an interval
apart; a returned pair is a published one. A cookie issued from one pair is accepted under that pair
and the next one in the window around its time alone, and what is accepted was made with one of the
two secrets. -/
theorem cookies_survive_one_rotation (interval : Option ℕ) (sipHash : UInt64 → UInt64 → List UInt8 →
      UInt64)
    (initial : DnsCookieSecretState) (actions : List CookieAction) :
    ((CookieSystem.start initial).run interval actions).published.IsChain
      (fun new old => Follows interval new old.1) ∧
    (∀ length ∈ interval,
      (rotationTimes ((CookieSystem.start initial).run interval actions).published).Pairwise
      fun later earlier => earlier + length ≤ later) ∧
    (∀ state ∈ ((CookieSystem.start initial).run interval actions).returned,
      state ∈ ((CookieSystem.start initial).run interval actions).published.map Prod.fst) ∧
    (∀ old new : DnsCookieSecretState, new.current = old.current ∨ new.previous = some old.current →
      ∀ (cookie : EdnsCookie) (clientIp : List UInt8) (issued now past future : UInt32),
        dnsServerCookieIsValid sipHash
          { cookie with server := some (computeDnsServerCookie cookie.client
          (ServerCookieContext.issuing sipHash ⟨old.current, old.previous, clientIp, issued, past,
            future⟩)) }
          ⟨new.current, new.previous, clientIp, now, past, future⟩ ↔
        InCookieWindow issued ⟨new.current, new.previous, clientIp, now, past, future⟩) ∧
    ∀ (cookie : EdnsRequestCookie) (context : ServerCookieContext),
      dnsServerCookieIsValid sipHash cookie context →
      ∃ server, cookie.server = some server ∧ server.length = 16 ∧ server.getD 0 0 = 1 ∧
        ∃ secret, (secret = context.serverSecret ∨ context.previousServerSecret = some secret) ∧
          server.drop 8 =
            computeDnsServerCookieWithFields sipHash cookie.client
              (server.take 8) context.clientIp secret := by
  have hrun := @CookieSystem.coherent_run interval initial actions
  refine ⟨hrun.chain, hrun.spaced, hrun.returned,
    fun old new hpair cookie clientIp issued now past future => ?_, fun cookie context hvalid => ?_⟩
  · have htime := fromBe32_be32 issued
    rw [dnsServerCookieIsValid_iff rfl, ← dnsCookieTimestampIsValid_iff]
    constructor
    · rintro ⟨-, -, hvalid, -⟩
      exact htime ▸ hvalid
    · exact fun hvalid => ⟨rfl, rfl, htime.symm ▸ hvalid, old.current, hpair.imp_left Eq.symm, rfl⟩
  · cases hserver : cookie.server with
    | none =>
      rw [dnsServerCookieIsValid, hserver] at hvalid
      cases hvalid
    | some server =>
      obtain ⟨hlength, hversion, -, hsecret⟩ :=
        (dnsServerCookieIsValid_iff hserver context).mp hvalid
      exact ⟨server, rfl, hlength, hversion, hsecret⟩

/-- One thread rotates after ten units of time, while another one waits for the lock. -/
def rotationActions : List CookieAction :=
  [.tick 10, .act 0 none, .act 1 none, .act 0 none, .act 1 none, .act 0 none, .act 1 none,
    .act 0 none, .act 0 none, .act 0 (some (replicate 16 2)), .act 0 none, .act 0 none]

/-- A cookie that was issued before the rotation is accepted after it. -/
theorem cookies_survive_rotationActions :
    let initial : DnsCookieSecretState := ⟨replicate 16 1, none, 0⟩
    let rotated : DnsCookieSecretState := ⟨replicate 16 2, some (replicate 16 1), 10⟩
    let sum := fun left right input => left + right + UInt64.ofNat (List.length input)
    ((CookieSystem.start initial).run (some 10) rotationActions).returned = [rotated] ∧
    ((CookieSystem.start initial).run (some 10) rotationActions).published.IsChain
      (fun new old => Follows (some 10) new old.1) ∧
    dnsServerCookieIsValid sum ⟨⟨replicate 8 7, rfl⟩, some (computeDnsServerCookie (replicate 8 7)
        (ServerCookieContext.issuing sum ⟨initial.current, none, [192, 0, 2, 1], 100, 60, 5⟩))⟩
      ⟨rotated.current, rotated.previous, [192, 0, 2, 1], 130, 60, 5⟩ := by
  intro initial rotated sum
  obtain ⟨hchain, -, -, hvalid, -⟩ :=
    cookies_survive_one_rotation (some 10) sum initial rotationActions
  refine ⟨rfl, hchain,
    (hvalid initial rotated (.inr rfl) ⟨replicate 8 7, rfl⟩ _ 100 130 60 5).mpr ?_⟩
  exact ⟨30, 0, by decide, by decide, by decide⟩

end BoronDns
