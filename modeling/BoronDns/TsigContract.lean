import BoronDns.TsigRoundTrip

/-!
The contract of the signing and verifying functions: what is signed is verified,
the two stream verifiers agree, nothing stops the program, and whatever is
accepted carries a MAC over exactly what is returned. A stream with an unsigned
message in front of a continuation, a time above 48 bits and a name that points
into the header show why the round trip is stated as it is.
-/

namespace BoronDns

open Bytes List Outcome

section Acceptance

variable {hmac : Hmac} {key : TsigKey} {now : UInt64}

theorem validateTsigIdentity_gives (key : TsigKey) (tsig : ParsedTsig) :
    (validateTsigIdentity key tsig).Gives (fun _ => True) fun _ => tsig.algorithm =
      some key.algorithm :=
  gives_ite (fun _ => trivial) fun _ => gives_ite (fun _ => trivial) not_not.mp

theorem validateProtocolMacLength_gives (algorithm : TsigAlgorithm) (mac : List UInt8) :
    (validateProtocolMacLength algorithm mac).Gives (fun _ => True) fun _ =>
      algorithm.minMacLen ≤ mac.length ∧ mac.length ≤ algorithm.macLen := by
  refine gives_ite (fun _ => trivial) fun hlen => ?_
  rw [not_or, Nat.not_lt, Nat.not_lt] at hlen
  exact hlen

theorem validateTsigTime_gives (timeSigned : UInt64) (fudge : UInt16) (now : UInt64) :
    (validateTsigTime timeSigned fudge now).Gives (fun _ => True) fun _ =>
      WithinFudge timeSigned fudge now := by
  have hiff := validateTsigTime_ok_iff timeSigned fudge now
  exact gives_ite (fun _ => trivial) fun hfits => hiff.mp (if_neg hfits)

theorem verifyTsigMac_gives (hmac : Hmac) (input : List UInt8) {mac : List UInt8}
    (h : key.algorithm.minMacLen ≤ mac.length ∧ mac.length ≤ key.algorithm.macLen) :
    (verifyTsigMac hmac key input mac).Gives (fun _ => True) fun _ =>
      Authentic hmac key input mac := by
  have hiff := verifyTsigMac_ok_iff hmac input h.2
  have hlen := h.2
  rw [← length_sign hmac key input] at hlen
  rw [verifyTsigMac, slice_eq_ok ⟨Nat.zero_le _, hlen⟩, ok_bind] at hiff ⊢
  exact gives_ite (fun _ => trivial) fun heq => ⟨h.1, hiff.mp (if_neg heq)⟩

/-- The length that is checked is that of the algorithm of the key. -/
theorem validateRequestTsigStructure_gives {tsig : ParsedTsig}
    (h : tsig.algorithm = some key.algorithm) :
    (validateRequestTsigStructure tsig).Gives (fun _ => True) fun _ => tsig.error =
      tsigErrorNoerror ∧
      key.algorithm.minMacLen ≤ tsig.mac.length ∧ tsig.mac.length ≤ key.algorithm.macLen := by
  unfold validateRequestTsigStructure
  rw [h]
  refine gives_ite (fun _ => trivial) fun herror => ?_
  exact (validateProtocolMacLength_gives _ _).mono fun _ hlen => ⟨not_not.mp herror, hlen⟩

/-- An accepted request carries a MAC over the message that is returned. -/
theorem verifyRequest_gives (hmac : Hmac) (message : List UInt8) (key : TsigKey) (now : UInt64) :
    (verifyRequest hmac message key now).Gives (fun _ => True) fun verified => ∃ fudge otherData,
      Authentic hmac key
          (verified.message ++ coveredFields key verified.timeSigned fudge tsigErrorNoerror
            otherData) verified.mac ∧
        WithinFudge verified.timeSigned fudge now := by
  refine (removeTsig_gives message).bind fun parsed _ => ?_
  obtain ⟨unsigned, tsig⟩ := parsed
  refine (validateTsigIdentity_gives key tsig).bind fun _ halgorithm => ?_
  refine (validateRequestTsigStructure_gives halgorithm).bind fun _ hstructure => ?_
  rw [tsigVariables_eq, ok_bind, hstructure.1]
  refine (verifyTsigMac_gives hmac _ hstructure.2).bind fun _ hauthentic => ?_
  exact (validateTsigTime_gives _ _ _).bind fun _ hnow => ⟨tsig.fudge, tsig.otherData, hauthentic,
    hnow⟩

/-- An accepted response carries a MAC over the request's and the message. -/
theorem verifyResponse_gives (hmac : Hmac) (message : List UInt8) (key : TsigKey)
    (requestMac : List UInt8) (now : UInt64) :
    (verifyResponse hmac message key requestMac now).Gives (fun _ => True) fun verified =>
      ∃ fudge otherData, Authentic hmac key (responseMacInput requestMac verified.message
            (coveredFields key verified.timeSigned fudge tsigErrorNoerror otherData)) verified.mac ∧
        WithinFudge verified.timeSigned fudge now := by
  refine (removeTsig_gives message).bind fun parsed _ => ?_
  obtain ⟨unsigned, tsig⟩ := parsed
  refine (validateTsigIdentity_gives key tsig).bind fun _ _ => ?_
  refine gives_ite (fun _ => trivial) fun _ => ?_
  refine (validateProtocolMacLength_gives _ _).bind fun _ hlen => ?_
  rw [tsigVariables_eq, ok_bind]
  refine (verifyTsigMac_gives hmac _ hlen).bind fun _ hauthentic => ?_
  refine gives_ite (fun _ => trivial) fun herror => ?_
  rw [not_not.mp herror] at hauthentic
  exact (validateTsigTime_gives _ _ _).bind fun _ hnow => ⟨tsig.fudge, tsig.otherData, hauthentic,
    hnow⟩

/-- The later messages of an accepted stream: from the last MAC, the unsigned messages
since it and its time, the messages received and those that are returned. Each
signature covers the messages since the one before it. -/
inductive CoveredStream (hmac : Hmac) (key : TsigKey) (now : UInt64) :
    List UInt8 → List (List UInt8) → UInt64 → List (List UInt8) → List (List UInt8) → Prop
  | done {priorMac : List UInt8} {last : UInt64} : CoveredStream hmac key now priorMac [] last [] []
  | unsigned {priorMac message : List UInt8} {pending received returned : List (List UInt8)}
      {last : UInt64}
      (hplain : removeTsig message = .error .missingTsig) (hfew : pending.length < 99)
      (rest : CoveredStream hmac key now priorMac (pending ++ [message]) last received returned) :
      CoveredStream hmac key now priorMac pending last (message :: received) (message :: returned)
  | signed {priorMac message plain mac : List UInt8} {pending received returned : List (List UInt8)}
      {last timeSigned : UInt64} {fudge : UInt16} (hstripped : ∃ tsig,
      removeTsig message = .ok (plain, tsig))
      (hauthentic : Authentic hmac key
      (tcpMacInput priorMac (pending ++ [plain]) timeSigned fudge) mac)
      (horder : last.toNat ≤ timeSigned.toNat) (hnow : WithinFudge timeSigned fudge now)
      (rest : CoveredStream hmac key now mac [] timeSigned received returned) :
      CoveredStream hmac key now priorMac pending last (message :: received) (plain :: returned)

theorem signedStreamStep_gives (hmac : Hmac) (key : TsigKey) (now : UInt64) (state : StreamState)
    (unsigned : List UInt8) (tsig : ParsedTsig) :
    (signedStreamStep hmac key now state unsigned tsig).Gives (fun _ => True) fun next =>
      Authentic hmac key
        (tcpMacInput state.priorMac (state.pendingUnsigned ++ [unsigned])
          tsig.timeSigned tsig.fudge)
          tsig.mac ∧ state.lastTimeSigned.toNat ≤ tsig.timeSigned.toNat ∧
          WithinFudge tsig.timeSigned tsig.fudge now ∧
        next = ⟨state.unsignedMessages ++ [unsigned], tsig.timeSigned, tsig.mac, [], true⟩ := by
  refine (validateTsigIdentity_gives key tsig).bind fun _ _ => ?_
  refine (validateProtocolMacLength_gives _ _).bind fun _ hlen => ?_
  refine (verifyTsigMac_gives hmac _ hlen).bind fun _ hauthentic => ?_
  refine gives_ite (fun _ => trivial) fun horder => ?_
  have hnoerror : (validateAuthenticatedResponseError tsig).Gives (fun _ => True) fun _ => True :=
    gives_ite (fun _ => trivial) fun _ => trivial
  refine hnoerror.bind fun _ _ => ?_
  refine (validateTsigTime_gives _ _ _).bind fun _ hnow => ⟨hauthentic, ?_, hnow, rfl⟩
  rw [UInt64.lt_iff_toNat_lt] at horder
  omega

theorem streamStep_gives (hmac : Hmac) (key : TsigKey) (now : UInt64) (state : StreamState)
    (message : List UInt8) :
    (streamStep hmac key now state message).Gives (fun _ => True) fun _ => True := by
  have hremove := removeTsig_gives message
  unfold streamStep
  split
  · exact (signedStreamStep_gives hmac key now state _ _).mono fun _ _ => trivial
  · exact gives_ite (fun _ => trivial) fun _ => trivial
  · trivial
  · exact absurd ‹_› hremove.returns

theorem foldlM_coveredStream {received : List (List UInt8)} {state final : StreamState}
    (hstate : state.lastMessageHadTsig = state.pendingUnsigned.isEmpty)
    (h : received.foldlM (streamStep hmac key now) state = .ok final)
    (hfinal : final.lastMessageHadTsig = true) :
    ∃ returned, final.unsignedMessages = state.unsignedMessages ++ returned ∧
      CoveredStream hmac key now state.priorMac state.pendingUnsigned state.lastTimeSigned
        received returned := by
  induction received generalizing state with
  | nil =>
    obtain rfl := ok.inj h
    rw [hfinal] at hstate
    refine ⟨[], (append_nil _).symm, ?_⟩
    rw [List.isEmpty_iff.mp hstate.symm]
    exact .done
  | cons message rest ih =>
    obtain ⟨next, hstep, h⟩ := bind_eq_ok_iff.mp h
    unfold streamStep at hstep
    split at hstep
    next unsigned tsig hremoved =>
      obtain ⟨hauthentic, horder, hnow, rfl⟩ := (signedStreamStep_gives ..).of_ok hstep
      obtain ⟨returned, hreturned, hcovered⟩ := ih rfl h
      refine ⟨unsigned :: returned, ?_, .signed ⟨tsig, hremoved⟩ hauthentic horder hnow hcovered⟩
      rw [hreturned, append_assoc]
      rfl
    next hmissing =>
      split at hstep
      · cases hstep
      · obtain rfl := ok.inj hstep
        obtain ⟨returned, hreturned, hcovered⟩ := ih (by simp) h
        refine ⟨message :: returned, ?_, .unsigned hmissing (by omega) hcovered⟩
        rw [hreturned, append_assoc]
        rfl
    · cases hstep
    · cases hstep

end Acceptance

theorem verifyTcpResponseStream_gives (hmac : Hmac) (messages : List (List UInt8)) (key : TsigKey)
    (requestMac : List UInt8) (now : UInt64) :
    (verifyTcpResponseStream hmac messages key requestMac now).Gives (fun _ => True) fun _ =>
      True := by
  cases messages with
  | nil => trivial
  | cons first rest =>
    refine (verifyResponse_gives hmac first key requestMac now).bind fun verified _ => ?_
    refine (gives_foldlM (motive := fun _ => True) rest
      (fun state message _ => streamStep_gives hmac key now state message) trivial).bind
      fun final _ => ?_
    exact gives_ite (fun _ => trivial) fun _ => trivial

theorem verifyTcpResponseStreamOwnedAtTimes_gives (hmac : Hmac)
    (messages : List (List UInt8 × UInt64)) (key : TsigKey) (requestMac : List UInt8) :
    (verifyTcpResponseStreamOwnedAtTimes hmac messages key requestMac).Gives
      (fun _ => True) fun _ => True := by
  cases messages with
  | nil => trivial
  | cons first rest =>
    obtain ⟨message, receivedAt⟩ := first
    unfold verifyTcpResponseStreamOwnedAtTimes
    dsimp only
    rw [← verifyResponse_eq_owned]
    refine (verifyResponse_gives hmac message key requestMac receivedAt).bind fun verified _ => ?_
    refine (gives_foldlM
      (motive := fun state : OwnedStreamState =>
        state.pendingStart ≤ state.unsignedMessages.length)
      rest (fun state received hbound => ?_) le_rfl).bind fun final _ => ?_
    · -- the step of the borrowed verifier at the time of this message is the same one
      have hsame : SameStream ⟨state.unsignedMessages, state.lastTimeSigned, state.priorMac,
          state.unsignedMessages.drop state.pendingStart, state.lastMessageHadTsig⟩ state :=
        ⟨rfl, rfl, rfl, hbound, rfl, rfl⟩
      have hrelated := streamStep_related hmac key received.2 hsame received.1
      refine (hrelated.gives (streamStep_gives hmac key _ _ _)).mono ?_
      rintro next ⟨borrowed, hnext, -⟩
      exact hnext.bound
    · exact gives_ite (fun _ => trivial) fun _ => trivial

/-- What the signing and verifying functions promise for a key. -/
structure TsigContract (hmac : Hmac) (key : TsigKey) : Prop where
  request : ∀ message arcount timeSigned fudge now, Signable message arcount →
    timeSigned.toNat < 2 ^ 48 → WithinFudge timeSigned fudge now →
    ∃ signed, signRequest hmac message key timeSigned fudge = .ok signed ∧
      verifyRequest hmac signed.message key now = .ok ⟨message, signed.mac, timeSigned⟩
  response : ∀ message arcount requestMac timeSigned fudge now, Signable message arcount →
    timeSigned.toNat < 2 ^ 48 → WithinFudge timeSigned fudge now →
    ∃ signed, signResponse hmac message key requestMac timeSigned fudge = .ok signed ∧
      verifyResponse hmac signed.message key requestMac now = .ok ⟨message, signed.mac, timeSigned⟩
  stream : ∀ first arcount requestMac timeSigned fudge now items, Signable first arcount →
    timeSigned.toNat < 2 ^ 48 → WithinFudge timeSigned fudge now →
    StreamFits now timeSigned 0 items →
    ∃ signed received, signResponse hmac first key requestMac timeSigned fudge = .ok signed ∧
      coverStream hmac key signed.mac [] items = .ok received ∧
      verifyTcpResponseStream hmac (signed.message :: received) key requestMac now =
        .ok (first :: items.map StreamItem.message)
  continuation : ∀ priorMac items,
    (∀ item ∈ items, ∃ message timeSigned fudge,
    item = StreamItem.signed message timeSigned fudge) →
    coverStream hmac key priorMac [] items = signStream hmac key priorMac items
  owned : ∀ messages requestMac now, verifyTcpResponseStream hmac messages key requestMac now =
    verifyTcpResponseStreamOwned hmac messages key requestMac now
  signingReturns : ∀ message priorMac timeSigned fudge,
    (signRequest hmac message key timeSigned fudge).Returns ∧
    (signResponse hmac message key priorMac timeSigned fudge).Returns ∧
    (signTcpResponseContinuation hmac message key priorMac timeSigned fudge).Returns
  verifyingReturns : ∀ message requestMac now, (verifyRequest hmac message key now).Returns ∧
    (verifyResponse hmac message key requestMac now).Returns
  streamReturns : ∀ messages requestMac now,
    (verifyTcpResponseStream hmac messages key requestMac now).Returns
  ownedReturns : ∀ messages requestMac,
    (verifyTcpResponseStreamOwnedAtTimes hmac messages key requestMac).Returns
  acceptedRequest : ∀ message now verified, verifyRequest hmac message key now = .ok verified →
    ∃ fudge otherData, Authentic hmac key
        (verified.message ++ coveredFields key verified.timeSigned fudge tsigErrorNoerror
        otherData) verified.mac ∧
      WithinFudge verified.timeSigned fudge now
  acceptedResponse : ∀ message requestMac now verified,
    verifyResponse hmac message key requestMac now = .ok verified →
    ∃ fudge otherData, Authentic hmac key
        (responseMacInput requestMac verified.message
          (coveredFields key verified.timeSigned fudge tsigErrorNoerror otherData)) verified.mac ∧
      WithinFudge verified.timeSigned fudge now
  acceptedStream : ∀ messages requestMac now returned,
    verifyTcpResponseStream hmac messages key requestMac now = .ok returned →
    ∃ first rest verified others, messages = first :: rest ∧ returned = verified.message :: others ∧
      verifyResponse hmac first key requestMac now = .ok verified ∧
      CoveredStream hmac key now verified.mac [] verified.timeSigned rest others

theorem tsigContract (hmac : Hmac) (key : TsigKey) : TsigContract hmac key where
  request _ _ _ _ _ h htime hnow := verifyRequest_signRequest hmac key h htime hnow
  response _ _ requestMac _ _ _ h htime hnow :=
    verifyResponse_signResponse hmac key h requestMac htime hnow
  stream first _ requestMac timeSigned _ now items h htime hnow hitems := by
    obtain ⟨signed, hsign, hverify⟩ := verifyResponse_signResponse hmac key h requestMac htime hnow
    obtain ⟨received, hcover, final, hfinal, hterminal, hmessages⟩ := foldlM_coverStream hmac key
      ⟨[first], timeSigned, signed.mac, [], true⟩ hitems rfl
    refine ⟨signed, received, hsign, hcover, ?_⟩
    rw [verifyTcpResponseStream, hverify, ok_bind, hfinal, ok_bind, hterminal, if_pos rfl,
      hmessages]
    rfl
  continuation priorMac _ h := coverStream_eq_signStream hmac key priorMac h
  owned messages requestMac now := verifyTcpResponseStream_eq_owned hmac messages key requestMac now
  signingReturns message _ timeSigned fudge := by
    rw [signRequest, signResponse, tsigVariables_eq]
    exact ⟨(signMessage_gives hmac key message timeSigned fudge _).returns,
      (signMessage_gives hmac key message timeSigned fudge _).returns,
      (signMessage_gives hmac key message timeSigned fudge _).returns⟩
  verifyingReturns message requestMac now :=
    ⟨(verifyRequest_gives hmac message key now).returns,
      (verifyResponse_gives hmac message key requestMac now).returns⟩
  streamReturns messages requestMac now :=
    (verifyTcpResponseStream_gives hmac messages key requestMac now).returns
  ownedReturns messages requestMac :=
    (verifyTcpResponseStreamOwnedAtTimes_gives hmac messages key requestMac).returns
  acceptedRequest _ _ _ h := (verifyRequest_gives hmac _ key _).of_ok h
  acceptedResponse _ _ _ _ h := (verifyResponse_gives hmac _ key _ _).of_ok h
  acceptedStream messages requestMac now returned h := by
    cases messages with
    | nil => exact absurd h (by simp [verifyTcpResponseStream])
    | cons first rest =>
      obtain ⟨verified, hverified, h⟩ := bind_eq_ok_iff.mp h
      obtain ⟨final, hfinal, h⟩ := bind_eq_ok_iff.mp h
      split at h
      next hterminal =>
        obtain ⟨others, hothers, hcovered⟩ := foldlM_coveredStream rfl hfinal hterminal
        refine ⟨first, rest, verified, others, rfl, ?_, hverified, hcovered⟩
        rw [← ok.inj h, hothers]
        rfl
      · cases h

/-- A message of twelve zero octets: a header and nothing else. -/
def emptyMessage : List UInt8 := List.replicate 12 0

theorem signable_emptyMessage : Signable emptyMessage 0 where
  header := by decide
  arcountAt := ⟨[], rfl⟩
  sections := ⟨0, 0, 0, 12, 12, 12, ⟨_, rfl⟩, ⟨_, rfl⟩, ⟨_, rfl⟩, .nil, .nil, .nil, .nil⟩
  room := by decide

/-- A keyed hash that only tells the length of what it covers. -/
def lengthHmac : Hmac where
  mac algorithm _ message := List.replicate algorithm.macLen (UInt8.ofNat message.length)
  length_mac _ _ _ := length_replicate

def rootKey : TsigKey := ⟨DomainName.root, .hmacSha1, [115, 101, 99], by decide⟩

/-- The address of `a`, whose owner in the answer points to the question. -/
def addressMessage : List UInt8 :=
  [0, 7, 0x84, 0, 0, 1, 0, 1, 0, 0, 0, 0, 1, 97, 0, 0, 1, 0, 1] ++
    [0xc0, 12] ++ recordTail 1 1 60 [192, 0, 2, 1]

theorem signable_addressMessage : Signable addressMessage 0 where
  header := by decide
  arcountAt := ⟨_, rfl⟩
  sections := by
    have hname : NameInBody addressMessage 12 [[97]] 0 15 :=
      .label (.inr (by decide)) ⟨_, rfl⟩ (by decide) (.root (.inr (by decide)) ⟨_, rfl⟩)
    have hpointer : NameInBody addressMessage 19 [[97]] 1 21 :=
      .pointer (.inr (by decide)) ⟨_, rfl⟩ (by decide) (by decide) hname
    refine ⟨1, 1, 0, 19, 35, 35, ⟨_, rfl⟩, ⟨_, rfl⟩, ⟨_, rfl⟩, ?_, ?_, .nil, .nil⟩
    · exact .cons ⟨⟨0, hname, by decide⟩, by decide⟩ (by decide) .nil
    · exact .cons ⟨⟨1, hpointer, by decide⟩, by decide⟩ (At.at_end _ _) (by decide) (by decide) .nil
  room := by decide

theorem tsigContract_addressMessage :
    (∃ signed, signRequest lengthHmac addressMessage rootKey 1000 300 = .ok signed ∧
      verifyRequest lengthHmac signed.message rootKey 1299 = .ok ⟨addressMessage, signed.mac,
        1000⟩) ∧
    ∃ signed received, signResponse lengthHmac addressMessage rootKey [1, 2] 1000 300 = .ok signed ∧
      coverStream lengthHmac rootKey signed.mac []
        [.unsigned addressMessage, .signed addressMessage 1001 300] = .ok received ∧
      verifyTcpResponseStream lengthHmac (signed.message :: received) rootKey [1, 2] 1299 =
        .ok [addressMessage, addressMessage, addressMessage] := by
  have h := tsigContract lengthHmac rootKey
  have hmessage := signable_addressMessage
  refine ⟨h.request _ 0 1000 300 1299 hmessage (by decide) ⟨by decide, by decide⟩, ?_⟩
  refine h.stream _ 0 [1, 2] 1000 300 1299 _ hmessage (by decide) ⟨by decide, by decide⟩ ?_
  exact ⟨⟨0, hmessage.toPlainMessage⟩, by decide, ⟨0, hmessage⟩, by decide, by decide,
    ⟨by decide, by decide⟩, rfl⟩

/-- An unsigned message stands between two signed ones, and the second is signed
with `sign_tcp_response_continuation`. -/
theorem signStream_unsigned_rejected :
    StreamFits 0 0 0 [.unsigned emptyMessage, .signed emptyMessage 0 0] ∧
      ∃ first received, signResponse lengthHmac emptyMessage rootKey [] 0 0 = .ok first ∧
        signStream lengthHmac rootKey first.mac
          [.unsigned emptyMessage, .signed emptyMessage 0 0] = .ok received ∧
        verifyTcpResponseStream lengthHmac (first.message :: received) rootKey
          [] 0 = .error .invalidMac := by
  refine ⟨⟨⟨0, signable_emptyMessage.toPlainMessage⟩, by decide, ⟨0, signable_emptyMessage⟩,
    by decide, by decide, ⟨by decide, by decide⟩, rfl⟩, _, _, rfl, rfl, ?_⟩
  decide +kernel

/-- A time of 2 ^ 48 is written as 0. -/
theorem signRequest_late_rejected :
    WithinFudge (2 ^ 48) 0 (2 ^ 48) ∧ ∃ signed, signRequest lengthHmac emptyMessage rootKey
      (2 ^ 48) 0 = .ok signed ∧
        verifyRequest lengthHmac signed.message rootKey (2 ^ 48) = .error .timeOutsideFudge := by
  exact ⟨⟨by decide, by decide⟩, _, rfl, by decide +kernel⟩

/-- Two questions, the first with a pointer to the last octet of the header, which with a record
more is read as a label that leads astray. -/
def headerPointerMessage : List UInt8 :=
  [0, 0, 0, 0, 0, 2, 0, 0, 0, 0, 0, 0, 0xc0, 11, 0, 1, 0, 1, 2, 97, 98, 0, 0, 1, 0, 64]

theorem signRequest_headerPointer_rejected :
    ∃ signed, signRequest lengthHmac headerPointerMessage rootKey 0 0 = .ok signed ∧
      verifyRequest lengthHmac signed.message rootKey 0 = .error .malformedMessage :=
  ⟨_, rfl, by decide +kernel⟩

end BoronDns
