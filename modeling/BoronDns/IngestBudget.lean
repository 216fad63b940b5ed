import Mathlib.Algebra.BigOperators.Group.List.Basic
import BoronDns.Tsig

/-!
The ingest budget that concurrent transfers share. A reservation is a loop
around a compare-exchange of one counter, taken up between any two steps of the
other transfers, and it is released by a subtraction when the transfer is over.
The counter is always the sum of the reservations that are held, so the
subtraction never wraps, and a transfer ends at the message that takes it over
its own limits.
-/

namespace BoronDns

open List

/-- The limits of a session, as the validated configuration gives them. -/
structure IngestLimits where
  maxIngestBytes : ℕ
  maxIngestMessages : ℕ
  maxIngestMessages_le : maxIngestMessages ≤ 1048576

inductive IngestError
  | ingestMessageLimit (receivedMessages limitMessages : ℕ)
  | ingestSizeLimit (receivedBytes limitBytes : ℕ)
  | ingestGlobalSizeLimit (requestedBytes inFlightBytes limitBytes : ℕ)
  deriving DecidableEq, Repr

structure TransferIngestBudget where
  limitBytes : ℕ
  wireChargeMultiplier : ℕ
  inFlightBytes : ℕ
  peakInFlightBytes : ℕ
  rejectionsTotal : ℕ

def TransferIngestBudget.withWireChargeMultiplier (limitBytes wireChargeMultiplier : ℕ) :
    TransferIngestBudget :=
  ⟨limitBytes, wireChargeMultiplier, 0, 0, 0⟩

/-- `message_bytes.saturating_mul(wire_charge_multiplier)`. -/
def TransferIngestBudget.chargedBytes (budget : TransferIngestBudget) (messageBytes : ℕ) : ℕ :=
  min (messageBytes * budget.wireChargeMultiplier) (2 ^ 64 - 1)

/-- A tracker; a reservation is the number of bytes it gives back. -/
structure TransferIngestTracker where
  limitBytes : ℕ
  limitMessageBytes : ℕ
  receivedBytes : ℕ
  limitMessages : ℕ
  receivedMessages : ℕ
  ingestBudget : Bool
  reservations : List ℕ

namespace TransferIngestTracker

/-- `new` followed by `with_message_limit` and `with_ingest_budget`. -/
def new (limits : IngestLimits) (ingestBudget : Bool) : TransferIngestTracker :=
  ⟨limits.maxIngestBytes, min limits.maxIngestBytes 65535, 0, limits.maxIngestMessages, 0,
    ingestBudget, []⟩

variable (tracker : TransferIngestTracker)

/-- `record_message` up to the reservation. -/
def checkMessage (messageLen : ℕ) : Except IngestError Unit :=
  let nextMessages := saturatingAdd64 tracker.receivedMessages 1
  let next := saturatingAdd64 tracker.receivedBytes messageLen
  if tracker.limitMessages < nextMessages then
    .error (.ingestMessageLimit nextMessages tracker.limitMessages)
  else if tracker.limitMessageBytes < messageLen ∨ tracker.limitBytes < next then
    .error (.ingestSizeLimit next tracker.limitBytes)
  else .ok ()

/-- `record_message` after the reservation. -/
def countMessage (messageLen : ℕ) : TransferIngestTracker :=
  { tracker with
    receivedMessages := saturatingAdd64 tracker.receivedMessages 1
    receivedBytes := saturatingAdd64 tracker.receivedBytes messageLen }

end TransferIngestTracker

/-- Where a transfer stands: between two messages, in the loop of `try_reserve` with the
count it has loaded, or over, with its reservations still to be dropped. -/
inductive TransferPhase
  | reading
  | reserving (messageLen inFlight : ℕ)
  | ended (error : Option IngestError)
  deriving DecidableEq

/-- A transfer, with the lengths of the messages it has taken in. -/
structure IngestTransfer where
  tracker : TransferIngestTracker
  phase : TransferPhase
  accepted : List ℕ

inductive TransferAction
  | recordMessage (messageLen : ℕ)
  | reserve (spurious : Bool)
  | finish
  | dropReservation
  deriving DecidableEq

namespace IngestTransfer

def accept (transfer : IngestTransfer) (messageLen : ℕ) (reserved : List ℕ) : IngestTransfer :=
  { tracker := { transfer.tracker.countMessage messageLen with
      reservations := transfer.tracker.reservations ++ reserved }
    phase := .reading
    accepted := transfer.accepted ++ [messageLen] }

/-- One atomic step of a transfer: a call of `record_message` up to the load in `try_reserve`,
one turn of its loop, the end of the transfer, or the drop of one reservation. -/
def step (budget : TransferIngestBudget) (transfer : IngestTransfer) :
    TransferAction → Option (TransferIngestBudget × IngestTransfer)
  | .recordMessage messageLen =>
    if transfer.phase = .reading then
      match transfer.tracker.checkMessage messageLen with
      | .error error => some (budget, { transfer with phase := .ended (some error) })
      | .ok _ =>
        if transfer.tracker.ingestBudget then
          some (budget, { transfer with phase := .reserving messageLen budget.inFlightBytes })
        else some (budget, transfer.accept messageLen [])
    else none
  | .reserve spurious =>
    match transfer.phase with
    | .reserving messageLen inFlight =>
      let charged := budget.chargedBytes messageLen
      let next := inFlight + charged
      if 2 ^ 64 ≤ next ∨ budget.limitBytes < next then
        some ({ budget with rejectionsTotal := (budget.rejectionsTotal + 1) % 2 ^ 64 },
          { transfer with
            phase := .ended (some (.ingestGlobalSizeLimit charged inFlight budget.limitBytes)) })
      -- The weak exchange may also fail when the counter has not moved.
      else if spurious = true ∨ budget.inFlightBytes ≠ inFlight then
        some (budget, { transfer with phase := .reserving messageLen budget.inFlightBytes })
      else
        some ({ budget with
            inFlightBytes := next, peakInFlightBytes := max budget.peakInFlightBytes next },
          transfer.accept messageLen [charged])
    | _ => none
  | .finish =>
    if transfer.phase = .reading then some (budget, { transfer with phase := .ended none })
    else none
  | .dropReservation =>
    match transfer.phase, transfer.tracker.reservations with
    | .ended _, reserved :: rest =>
      some ({ budget with inFlightBytes := (budget.inFlightBytes + 2 ^ 64 - reserved) % 2 ^ 64 },
        { transfer with tracker := { transfer.tracker with reservations := rest } })
    | _, _ => none

end IngestTransfer

structure IngestSystem where
  budget : TransferIngestBudget
  transfers : List IngestTransfer

inductive IngestAction
  | start (limits : IngestLimits) (ingestBudget : Bool)
  | act (index : ℕ) (action : TransferAction)

namespace IngestSystem

/-- The reservations that are held. -/
def live (system : IngestSystem) : List ℕ :=
  system.transfers.flatMap fun transfer => transfer.tracker.reservations

def step (system : IngestSystem) : IngestAction → Option IngestSystem
  | .start limits ingestBudget =>
    some { system with transfers := system.transfers ++ [⟨.new limits ingestBudget, .reading, []⟩] }
  | .act index action => do
    let transfer ← system.transfers[index]?
    let (budget, transfer) ← transfer.step system.budget action
    some ⟨budget, system.transfers.set index transfer⟩

/-- The steps of all transfers, in any order. -/
def run (limitBytes wireChargeMultiplier : ℕ) (actions : List IngestAction) : Option IngestSystem :=
  actions.foldlM step ⟨.withWireChargeMultiplier limitBytes wireChargeMultiplier, []⟩

end IngestSystem

/-- The counters of a transfer are its totals, and these are within its limits. -/
structure IngestTransfer.Within (transfer : IngestTransfer) : Prop where
  receivedMessages : transfer.tracker.receivedMessages = transfer.accepted.length
  receivedBytes : transfer.tracker.receivedBytes = transfer.accepted.sum
  messages_le : transfer.accepted.length ≤ transfer.tracker.limitMessages
  bytes_le : transfer.accepted.sum ≤ transfer.tracker.limitBytes
  limitMessages_le : transfer.tracker.limitMessages ≤ 1048576
  limitMessageBytes_le : transfer.tracker.limitMessageBytes ≤ 65535
  sum_le : transfer.accepted.sum ≤ 65535 * transfer.accepted.length
  checked : ∀ messageLen inFlight, transfer.phase = .reserving messageLen inFlight →
    transfer.tracker.checkMessage messageLen = .ok ()

namespace IngestTransfer

variable {transfer after : IngestTransfer} {budget budget' : TransferIngestBudget}
  {action : TransferAction}

/-- Totals within the limits never saturate, so a message is let through exactly when it
keeps them there. -/
theorem Within.checkMessage_ok (h : transfer.Within) (messageLen : ℕ) :
    transfer.tracker.checkMessage messageLen = .ok () ↔
      transfer.accepted.length + 1 ≤ transfer.tracker.limitMessages ∧
        messageLen ≤ transfer.tracker.limitMessageBytes ∧
          transfer.accepted.sum + messageLen ≤ transfer.tracker.limitBytes := by
  obtain ⟨hmessages, hbytes, hlen, -, hlimit, hmessage, hsum, -⟩ := h
  unfold TransferIngestTracker.checkMessage saturatingAdd64
  dsimp only
  split_ifs with hcount hsize
  · simp only [false_iff]
    omega
  · simp only [false_iff]
    omega
  · simp only [true_iff]
    omega

theorem Within.accept (h : transfer.Within) {messageLen : ℕ} (reserved : List ℕ)
    (hcheck : transfer.tracker.checkMessage messageLen = .ok ()) :
    (transfer.accept messageLen reserved).Within := by
  obtain ⟨hcount, hlen, hbytes⟩ := (h.checkMessage_ok messageLen).mp hcheck
  have hlimit := h.limitMessages_le
  have hmessage := h.limitMessageBytes_le
  have hsum := h.sum_le
  constructor <;>
    simp [IngestTransfer.accept, TransferIngestTracker.countMessage, saturatingAdd64,
      h.receivedMessages, h.receivedBytes] <;> omega

/-- What one step does to the counter and to the reservations of the transfer that takes it. -/
theorem step_spec (h : transfer.step budget action = some (budget', after))
    (hwithin : transfer.Within) (hheld : transfer.tracker.reservations.sum ≤ budget.inFlightBytes)
    (hlimit : budget.inFlightBytes ≤ budget.limitBytes) (hfits : budget.inFlightBytes < 2 ^ 64) :
    after.Within ∧ budget'.limitBytes = budget.limitBytes ∧
      budget'.inFlightBytes + transfer.tracker.reservations.sum =
        budget.inFlightBytes + after.tracker.reservations.sum ∧
      budget'.inFlightBytes ≤ budget.limitBytes ∧ budget'.inFlightBytes < 2 ^ 64 := by
  cases action with
  | recordMessage messageLen =>
    simp only [step] at h
    split at h
    case isFalse => cases h
    split at h
    next error hcheck =>
      cases h
      exact ⟨{ hwithin with checked := nofun }, rfl, rfl, hlimit, hfits⟩
    next hcheck =>
      split at h
      · cases h
        refine ⟨{ hwithin with checked := fun _ _ hphase => ?_ }, rfl, rfl, hlimit, hfits⟩
        cases hphase
        exact hcheck
      · cases h
        exact ⟨hwithin.accept [] hcheck, rfl, by simp [accept, TransferIngestTracker.countMessage],
          hlimit, hfits⟩
  | reserve spurious =>
    simp only [step] at h
    split at h
    case h_2 => cases h
    next messageLen inFlight hphase =>
    split at h
    · cases h
      exact ⟨{ hwithin with checked := nofun }, rfl, rfl, hlimit, hfits⟩
    next hroom =>
    have hcheck := hwithin.checked messageLen inFlight hphase
    split at h
    · cases h
      refine ⟨{ hwithin with checked := fun _ _ hphase => ?_ }, rfl, rfl, hlimit, hfits⟩
      cases hphase
      exact hcheck
    next hsame =>
    cases h
    refine ⟨hwithin.accept _ hcheck, rfl, ?_, by dsimp only; omega, by dsimp only; omega⟩
    simp only [accept, TransferIngestTracker.countMessage, sum_append, sum_singleton]
    omega
  | finish =>
    simp only [step] at h
    split at h
    · cases h
      exact ⟨{ hwithin with checked := nofun }, rfl, rfl, hlimit, hfits⟩
    · cases h
  | dropReservation =>
    simp only [step] at h
    split at h
    case h_2 => cases h
    next reserved rest hphase hreservations =>
    rw [hreservations, sum_cons] at hheld
    cases h
    refine ⟨⟨hwithin.1, hwithin.2, hwithin.3, hwithin.4, hwithin.5, hwithin.6, hwithin.7, ?_⟩, rfl,
      ?_, ?_, ?_⟩
    · exact fun _ _ hreserving => absurd (hphase.symm.trans hreserving) nofun
    · rw [hreservations, sum_cons]
      dsimp only
      omega
    · dsimp only
      omega
    · dsimp only
      omega

end IngestTransfer

namespace IngestSystem

variable {system after : IngestSystem} {limitBytes : ℕ}

/-- The invariant of every run. -/
structure Accounted (limitBytes : ℕ) (system : IngestSystem) : Prop where
  within : ∀ transfer ∈ system.transfers, transfer.Within
  limitBytes_eq : system.budget.limitBytes = limitBytes
  inFlightBytes_eq : system.budget.inFlightBytes = system.live.sum
  inFlightBytes_le : system.budget.inFlightBytes ≤ limitBytes
  inFlightBytes_lt : system.budget.inFlightBytes < 2 ^ 64

theorem Accounted.held_le (h : system.Accounted limitBytes) {transfer : IngestTransfer}
    (hmem : transfer ∈ system.transfers) :
    transfer.tracker.reservations.sum ≤ system.budget.inFlightBytes := by
  obtain ⟨before, rest, htransfers⟩ := append_of_mem hmem
  rw [h.inFlightBytes_eq, live, htransfers]
  simp only [flatMap_append, flatMap_cons, sum_append]
  omega

theorem Accounted.step_spec (h : system.Accounted limitBytes) {index : ℕ}
    {transfer next : IngestTransfer} {action : TransferAction} {budget : TransferIngestBudget}
    (hat : system.transfers[index]? = some transfer)
    (hstep : transfer.step system.budget action = some (budget, next)) :
    next.Within ∧ budget.limitBytes = limitBytes ∧
      budget.inFlightBytes + transfer.tracker.reservations.sum =
        system.budget.inFlightBytes + next.tracker.reservations.sum ∧
      budget.inFlightBytes ≤ limitBytes ∧ budget.inFlightBytes < 2 ^ 64 := by
  have hmem := mem_of_getElem? hat
  have hlimit := h.limitBytes_eq
  have hspec := IngestTransfer.step_spec hstep (h.within transfer hmem) (h.held_le hmem)
    (hlimit.symm ▸ h.inFlightBytes_le) h.inFlightBytes_lt
  rwa [hlimit] at hspec

theorem Accounted.step (h : system.Accounted limitBytes) {action : IngestAction}
    (hstep : system.step action = some after) : after.Accounted limitBytes := by
  cases action with
  | start limits ingestBudget =>
    cases hstep
    refine ⟨fun transfer hmem => ?_, h.limitBytes_eq, ?_, h.inFlightBytes_le, h.inFlightBytes_lt⟩
    · rcases mem_append.mp hmem with hmem | hmem
      · exact h.within transfer hmem
      · rw [mem_singleton.mp hmem]
        exact ⟨rfl, rfl, Nat.zero_le _, Nat.zero_le _, limits.maxIngestMessages_le,
          Nat.min_le_right _ _, Nat.zero_le _, nofun⟩
    · simp [h.inFlightBytes_eq, live, TransferIngestTracker.new]
  | act index action =>
    obtain ⟨transfer, hat, hstep⟩ := Option.bind_eq_some_iff.mp hstep
    obtain ⟨⟨budget, next⟩, htransfer, hstep⟩ := Option.bind_eq_some_iff.mp hstep
    cases hstep
    obtain ⟨hwithin, hlimit, hsum, hle, hlt⟩ := h.step_spec hat htransfer
    obtain ⟨hindex, rfl⟩ := List.getElem?_eq_some_iff.mp hat
    obtain ⟨before, rest, htransfers, -, hset⟩ := @List.exists_of_set _ _ next _ hindex
    have hlive := h.inFlightBytes_eq
    rw [live, htransfers] at hlive
    refine ⟨fun other hmem => ?_, hlimit, ?_, hle, hlt⟩
    · rcases mem_or_eq_of_mem_set hmem with hmem | rfl
      · exact h.within other hmem
      · exact hwithin
    · rw [live, hset]
      simp only [flatMap_append, flatMap_cons, sum_append] at hlive ⊢
      omega

theorem Accounted.run {wireChargeMultiplier : ℕ} {actions : List IngestAction}
    (h : IngestSystem.run limitBytes wireChargeMultiplier actions = some system) :
    system.Accounted limitBytes := by
  have hstart : Accounted limitBytes ⟨.withWireChargeMultiplier limitBytes wireChargeMultiplier,
      []⟩ :=
    ⟨nofun, rfl, rfl, Nat.zero_le _, (by decide : 0 < 2 ^ 64)⟩
  unfold IngestSystem.run at h
  revert hstart h
  generalize (⟨.withWireChargeMultiplier limitBytes wireChargeMultiplier, []⟩ : IngestSystem) =
    start
  intro h hstart
  induction actions generalizing start with
  | nil =>
    cases h
    exact hstart
  | cons action actions ih =>
    obtain ⟨next, hnext, h⟩ := Option.bind_eq_some_iff.mp h
    exact ih next h (hstart.step hnext)

end IngestSystem

end BoronDns
