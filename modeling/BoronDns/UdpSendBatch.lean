import Mathlib.Data.List.Basic

/-!
Sending a list of replies with `sendmmsg`. Each call offers a batch from the cursor
on; the kernel takes some datagrams from its front or reports an error. Calls that
block or lack resources are repeated a few times, and an error of a single datagram
skips the first one of the batch.
-/

namespace BoronDns

open List

inductive ErrorKind
  | wouldBlock
  | interrupted
  | invalidInput
  | writeZero
  | other
  deriving DecidableEq

structure IoError where
  kind : ErrorKind
  rawOsError : Option ℕ
  deriving DecidableEq

inductive UdpIoErrorAction
  | continued
  | backoff (millis : ℕ)
  | fatal
  deriving DecidableEq

/-- ENOBUFS and ENOMEM; ECONNREFUSED, EHOSTUNREACH, ENETUNREACH, EMSGSIZE, EPERM and
EBUSY. -/
def classifyUdpSendError (error : IoError) : UdpIoErrorAction :=
  if error.kind = .wouldBlock ∨ error.kind = .interrupted then .continued
  else match error.rawOsError with
    | some 105 | some 12 => .backoff 50
    | some 111 | some 113 | some 101 | some 90 | some 1 | some 16 => .continued
    | _ => .fatal

inductive UdpPacketTarget
  | socket (peer : List UInt8)
  | afXdp

/-- A reply, with what `owned` gives for its response. -/
structure UdpOutbound where
  target : UdpPacketTarget
  response : Except IoError (List UInt8)

/-- A call of `sendmmsg`: the index of the first datagram, how many are offered, and
how many of them the kernel takes. -/
structure SendCall where
  first : ℕ
  count : ℕ
  outcome : Except IoError (Fin (count + 1))

/-- The outcomes of the calls, by their number and the size of the batch. -/
abbrev Kernel := ℕ → (count : ℕ) → Except IoError (Fin (count + 1))

structure SendState where
  cursor : ℕ
  sentIndices : List ℕ
  blockedRetries : ℕ
  resourceBackoffRetries : ℕ

def sendWouldblockRetries : ℕ := 256

def sendResourceBackoffRetries : ℕ := 3

/-- What the loop does with the outcome of a call. -/
def SendState.afterCall (state : SendState) {count : ℕ} :
    Except IoError (Fin (count + 1)) → Except IoError SendState
  | .ok sent =>
    if 0 < sent.val then
      .ok ⟨state.cursor + sent, state.sentIndices ++ range' state.cursor sent, 0, 0⟩
    else .error ⟨.writeZero, none⟩
  | .error error =>
    match classifyUdpSendError error with
    | .continued =>
      if error.kind = .wouldBlock ∨ error.kind = .interrupted then
        if sendWouldblockRetries ≤ state.blockedRetries + 1 then .error error
        else .ok { state with blockedRetries := state.blockedRetries + 1 }
      else .ok ⟨state.cursor + 1, state.sentIndices, 0, 0⟩
    | .backoff _ =>
      if sendResourceBackoffRetries ≤ state.resourceBackoffRetries then .error error
      else .ok { state with resourceBackoffRetries := state.resourceBackoffRetries + 1 }
    | .fatal => .error error

section Loop

variable (mmsg : StdUdpMmsg) (outbound : List UdpOutbound) (kernel : Kernel)

end Loop

/-- The indices of the datagrams that the kernel took, call by call: it takes them from the front
of the batch. -/
def handedOver (calls : List SendCall) : List ℕ :=
  calls.flatMap fun call =>
    match call.outcome with
    | .ok sent => range' call.first sent
    | .error _ => []

/-- An error that was reported while the datagram was the first of its batch, and
concerns it alone. -/
def Skipped (calls : List SendCall) (index : ℕ) : Prop :=
  ∃ call ∈ calls, call.first = index ∧ ∃ error, call.outcome = .error error ∧
    classifyUdpSendError error = .continued ∧ error.kind ≠ .wouldBlock ∧ error.kind ≠ .interrupted

/-- The indices tell what the calls handed over, each datagram once and in order. -/
structure Accounts (outbound : List UdpOutbound) (sent : List ℕ) (calls : List SendCall) :
    Prop where
  increasing : sent.Pairwise (· < ·)
  inRange : ∀ index ∈ sent, index < outbound.length
  handed : handedOver calls = sent

/-- Before each call. Calls without progress are counted by the two retry counters. -/
structure SendState.Sound (outbound : List UdpOutbound) (state : SendState)
    (calls : List SendCall) : Prop where
  accounts : Accounts outbound state.sentIndices calls
  below : ∀ index ∈ state.sentIndices, index < state.cursor
  skipped : ∀ index < state.cursor, index ∉ state.sentIndices → Skipped calls index
  inside : state.cursor ≤ outbound.length
  blocked : state.blockedRetries < sendWouldblockRetries
  backoffs : state.resourceBackoffRetries ≤ sendResourceBackoffRetries
  counted : calls.length ≤ 259 * state.cursor + state.blockedRetries + state.resourceBackoffRetries

section Accounting

variable {outbound : List UdpOutbound} {state next : SendState} {calls : List SendCall} {count : ℕ}

theorem handedOver_append (call : SendCall) :
    handedOver (calls ++ [call]) = handedOver calls ++ handedOver [call] :=
  flatMap_append

theorem Accounts.append {sent : List ℕ} (h : Accounts outbound sent calls) {call : SendCall}
    (hnone : handedOver [call] = []) : Accounts outbound sent (calls ++ [call]) :=
  ⟨h.increasing, h.inRange, by rw [handedOver_append, hnone, append_nil, h.handed]⟩

theorem Skipped.mono {index : ℕ} (h : Skipped calls index) (call : SendCall) :
    Skipped (calls ++ [call]) index := by
  obtain ⟨earlier, hmem, hskipped⟩ := h
  exact ⟨earlier, mem_append_left _ hmem, hskipped⟩

theorem SendState.Sound.counted_succ (h : state.Sound outbound calls) :
    calls.length < 259 * (state.cursor + 1) := by
  obtain ⟨-, -, -, -, hblocked, hbackoffs, hcounted⟩ := h
  rw [sendWouldblockRetries] at hblocked
  rw [sendResourceBackoffRetries] at hbackoffs
  omega

/-- The kernel takes datagrams from the front of the batch. -/
theorem SendState.Sound.accepted (h : state.Sound outbound calls)
    (hcount : state.cursor + count ≤ outbound.length)
    (sent : Fin (count + 1)) (hsent : 0 < sent.val) :
    SendState.Sound outbound ⟨state.cursor + sent, state.sentIndices ++ range' state.cursor sent, 0,
      0⟩ (calls ++ [⟨state.cursor, count, .ok sent⟩]) := by
  have hcounted := h.counted_succ
  obtain ⟨haccounts, hbelow, hskipped, -, -, -, -⟩ := h
  refine ⟨⟨?_, ?_, ?_⟩, ?_, ?_, ?_, Nat.two_pow_pos 8, Nat.zero_le _, ?_⟩
  · refine pairwise_append.mpr ⟨haccounts.increasing, pairwise_lt_range',
      fun index hindex other hother => ?_⟩
    exact Nat.lt_of_lt_of_le (hbelow index hindex) (mem_range'_1.mp hother).1
  · intro index hindex
    rcases mem_append.mp hindex with hindex | hindex
    · exact haccounts.inRange index hindex
    · have := mem_range'_1.mp hindex
      omega
  · rw [handedOver_append, haccounts.handed]
    simp [handedOver]
  · intro index hindex
    rcases mem_append.mp hindex with hindex | hindex
    · exact Nat.lt_add_right _ (hbelow index hindex)
    · exact (mem_range'_1.mp hindex).2
  · intro index hindex hnot
    rw [mem_append, not_or, mem_range'_1] at hnot
    dsimp only at hindex
    exact (hskipped index (by omega) hnot.1).mono _
  · dsimp only
    omega
  · simp only [length_append, length_singleton]
    omega

/-- An error moves the loop by one retry or by one datagram, or ends it. -/
theorem SendState.Sound.reported (h : state.Sound outbound calls)
    (hcursor : state.cursor < outbound.length) (error : IoError)
    (hnext : state.afterCall (.error error : Except IoError (Fin (count + 1))) = .ok next) :
    next.Sound outbound (calls ++ [⟨state.cursor, count, .error error⟩]) := by
  have haccounts : Accounts outbound state.sentIndices
      (calls ++ [⟨state.cursor, count, .error error⟩]) :=
    h.accounts.append rfl
  have hskipped index (hindex : index < state.cursor) (hnot : index ∉ state.sentIndices) :
      Skipped (calls ++ [⟨state.cursor, count, .error error⟩]) index :=
    (h.skipped index hindex hnot).mono _
  have hcounted := h.counted
  have hsucc := h.counted_succ
  unfold SendState.afterCall at hnext
  dsimp only at hnext
  split at hnext
  next hcontinued =>
    split at hnext
    next hkind =>
      split at hnext
      · cases hnext
      next hfew =>
        obtain rfl := Except.ok.inj hnext
        refine ⟨haccounts, h.below, hskipped, h.inside, Nat.not_le.mp hfew, h.backoffs, ?_⟩
        simp only [length_append, length_singleton]
        omega
    next hkind =>
      obtain rfl := Except.ok.inj hnext
      refine ⟨haccounts, fun index hindex => Nat.lt_succ_of_lt (h.below index hindex), ?_, hcursor,
        Nat.two_pow_pos 8, Nat.zero_le _, ?_⟩
      · intro index hindex hnot
        rcases Nat.lt_succ_iff_lt_or_eq.mp hindex with hindex | rfl
        · exact hskipped index hindex hnot
        · exact ⟨_, mem_append_right _ (mem_singleton_self _), rfl, error, rfl, hcontinued,
            not_or.mp hkind⟩
      · simp only [length_append, length_singleton]
        omega
  · split at hnext
    · cases hnext
    next hfew =>
      obtain rfl := Except.ok.inj hnext
      refine ⟨haccounts, h.below, hskipped, h.inside, h.blocked, Nat.not_le.mp hfew, ?_⟩
      simp only [length_append, length_singleton]
      omega
  · cases hnext

variable (mmsg : StdUdpMmsg) (kernel : Kernel)

end Accounting

end BoronDns
