import BoronDns.TsigChecked

/-!
What is signed is verified. A plain message that is signed, at a time of at most
48 bits, comes back byte for byte within the fudge, as a request, as a response
and in a stream of TCP responses. In a stream a later signature has to cover the
unsigned messages since the one before it; `sign_tcp_response_continuation`
covers its own message only, so it serves streams in which every message is
signed.
-/

namespace BoronDns

open Bytes List
open Outcome (ok_bind slice_eq_ok u16At_of_at)

section Signing

/-- The signed message: a plain one with the record of the MAC over `input`. -/
def signedPacket (hmac : Hmac) (key : TsigKey) (message : List UInt8) (arcount originalId : UInt16)
    (timeSigned : UInt64) (fudge : UInt16) (input : List UInt8) : List UInt8 :=
  attached message arcount key.name
    (tsigRdata (algorithmOwner key.algorithm)
      ⟨timeSigned, fudge, key.sign hmac input, originalId, tsigErrorNoerror, []⟩)

theorem length_sign (hmac : Hmac) (key : TsigKey) (input : List UInt8) :
    (key.sign hmac input).length = key.algorithm.macLen :=
  hmac.length_mac _ _ _

theorem macLen_pos (algorithm : TsigAlgorithm) : 0 < algorithm.macLen ∧ algorithm.macLen ≤ 64 := by
  cases algorithm <;> decide

/-- A message that can be signed: plain, and with room for one more record. -/
structure Signable (message : List UInt8) (arcount : UInt16) :
    Prop extends PlainMessage message arcount where
  room : arcount.toNat < 65535

variable {message : List UInt8} {arcount : UInt16} {originalId : UInt16}

theorem Signable.exists_id (h : Signable message arcount) : ∃ id, At message 0 (be16 id) :=
  At.exists_be16 message (Nat.le_trans (by decide : 0 + 2 ≤ dnsHeaderLen) h.header)

theorem signMessage_eq (hmac : Hmac) (key : TsigKey) (h : Signable message arcount)
    (hid : At message 0 (be16 originalId)) (timeSigned : UInt64) (fudge : UInt16)
    (input : List UInt8) : signMessage hmac key message timeSigned fudge (.ok input) =
      .ok ⟨signedPacket hmac key message arcount originalId timeSigned fudge input,
        key.sign hmac input⟩ := by
  have hroom := h.room
  have harcount : signedArcount message = .ok (arcount + 1) := by
    rw [signedArcount, dnsHeaderArcountOffset, u16At_of_at h.arcountAt, ok_bind, if_pos (by omega)]
  rw [signMessage, if_neg (Nat.not_lt.mpr h.header), dnsHeaderIdOffset, u16At_of_at hid, ok_bind,
    harcount, ok_bind, ok_bind, write_arcount h.header, ok_bind, appendTsigRr,
    algorithmDomainName_eq, ok_bind]
  simp [signedPacket, appendTsigRrForNames, attached, recordTail, append_assoc]

theorem length_tsigRdata_le (hmac : Hmac) (key : TsigKey) (timeSigned : UInt64)
    (fudge originalId : UInt16) (input : List UInt8) : (tsigRdata (algorithmOwner key.algorithm)
      ⟨timeSigned, fudge, key.sign hmac input, originalId, tsigErrorNoerror, []⟩).length <
        65536 := by
  have hname := wireLen_algorithmOwner key.algorithm
  have hwire : (canonicalNameWire (algorithmOwner key.algorithm)).length ≤ 255 := by
    rw [canonicalNameWire, DomainName.length_toWire, DomainName.wireLen_toAsciiLowercased]
    exact hname
  have hmac := macLen_pos key.algorithm
  simp only [tsigRdata, length_append, length_be16, length_u48Wire, length_sign, length_nil]
  omega

/-- What the verifier reads from a signed message. -/
def signedTsig (hmac : Hmac) (key : TsigKey) (originalId : UInt16) (timeSigned : UInt64)
    (fudge : UInt16) (input : List UInt8) : ParsedTsig :=
  parsedFields key.name.toAsciiLowercased (algorithmOwner key.algorithm).toAsciiLowercased
    ⟨timeSigned, fudge, key.sign hmac input, originalId, tsigErrorNoerror, []⟩

/-- Stripping the record gives the plain message back. -/
theorem removeTsig_signedPacket (hmac : Hmac) (key : TsigKey) (h : Signable message arcount)
    (hid : At message 0 (be16 originalId)) (timeSigned : UInt64) (fudge : UInt16)
    (input : List UInt8) :
    removeTsig (signedPacket hmac key message arcount originalId timeSigned fudge input) =
      .ok (message, signedTsig hmac key originalId timeSigned fudge input) := by
  have hheader := h.header
  have hroom := h.room
  have hmac64 := macLen_pos key.algorithm
  set fields : TsigRecordFields :=
    ⟨timeSigned, fudge, key.sign hmac input, originalId, tsigErrorNoerror, []⟩ with hfields
  have hpacket : signedPacket hmac key message arcount originalId timeSigned fudge input =
      attached message arcount key.name (tsigRdata (algorithmOwner key.algorithm) fields) := rfl
  have hrdata := length_tsigRdata_le hmac key timeSigned fudge originalId input
  have hview := finalTsigRecordView_attached h.toPlainMessage hroom key.name_fits hrdata
  rw [← hfields, ← hpacket] at hview
  set packet := signedPacket hmac key message arcount originalId timeSigned fudge input
  have hparse := parseTsigRecord_tsigRdata key.name.toAsciiLowercased message.length packet.length
    (wireLen_algorithmOwner key.algorithm) fields
    (by rw [hfields]; dsimp only; rw [length_sign]; omega) (by rw [hfields]; simp)
  have hlen := length_withArcount hheader (arcount + 1)
  have htake : packet.take message.length = withArcount message (arcount + 1) := by
    rw [hpacket, attached, take_left' hlen]
  have hplus : (arcount + 1).toNat = arcount.toNat + 1 := by
    simp
    omega
  obtain ⟨-, -, -, count, hcount, -⟩ := finalTsigRecordView_some hview
  have hcountEq : count = arcount + 1 :=
    (Outcome.ok.inj ((u16At_of_at (arcountAt_attached hheader arcount _ _)).symm.trans hcount)).symm
  have hidAt : At (withArcount message (arcount + 1)) 0 (be16 originalId) := by
    simpa using at_withArcount hheader (arcount + 1) hid (by simp) []
  have hrestore : restoreHeader (withArcount message (arcount + 1)) originalId (arcount + 1) =
      .ok message := by
    have hsub : (Outcome.subU16 (arcount + 1) 1 : Outcome TsigError UInt16) = .ok arcount := by
      rw [Outcome.subU16, if_pos (by rw [hplus, UInt16.toNat_one]; omega)]
      exact congrArg Outcome.ok (UInt16.add_sub_cancel _ _)
    have hfits : 0 + (be16 originalId).length ≤ (withArcount message (arcount + 1)).length := by
      rw [hlen, length_be16]
      exact Nat.le_trans (by decide) hheader
    rw [restoreHeader, dnsHeaderIdOffset, Outcome.write_of_at hidAt hfits, ok_bind, hsub, ok_bind,
      write_arcount (by omega), withArcount_withArcount hheader, withArcount_self h.toPlainMessage]
  have hshort : ¬ packet.length < dnsHeaderLen := by
    rw [hpacket, attached, length_append, hlen]
    omega
  rw [removeTsig_eq_owned, removeTsigOwned, if_neg hshort, hcount, ok_bind, requireTsig, hview]
  simp only [ok_bind, hparse, htake, hcountEq]
  have hid' : (parsedFields key.name.toAsciiLowercased
      (algorithmOwner key.algorithm).toAsciiLowercased fields).originalId = originalId := rfl
  rw [hid', hrestore]
  rfl

end Signing

section Verifying

/-- The times are no further apart than the fudge. -/
def WithinFudge (timeSigned : UInt64) (fudge : UInt16) (now : UInt64) : Prop :=
  timeSigned.toNat ≤ now.toNat + fudge.toNat ∧ now.toNat ≤ timeSigned.toNat + fudge.toNat

theorem validateTsigTime_ok_iff (timeSigned : UInt64) (fudge : UInt16) (now : UInt64) :
    validateTsigTime timeSigned fudge now = .ok () ↔ WithinFudge timeSigned fudge now := by
  have htime := timeSigned.toNat_lt
  have hnow := now.toNat_lt
  unfold validateTsigTime saturatingAdd64 WithinFudge
  split
  · simp only [reduceCtorEq, false_iff]
    omega
  · simp only [true_iff]
    omega

/-- The received MAC is the digest of the input, cut at most to half its length. -/
structure Authentic (hmac : Hmac) (key : TsigKey) (input mac : List UInt8) : Prop where
  longEnough : key.algorithm.minMacLen ≤ mac.length
  matching : mac = (key.sign hmac input).take mac.length

theorem verifyTsigMac_ok_iff (hmac : Hmac) {key : TsigKey} (input : List UInt8) {mac : List UInt8}
    (h : mac.length ≤ key.algorithm.macLen) :
    verifyTsigMac hmac key input mac = .ok () ↔ mac = (key.sign hmac input).take mac.length := by
  rw [← length_sign hmac key input] at h
  rw [verifyTsigMac, slice_eq_ok ⟨Nat.zero_le _, h⟩, ok_bind]
  split <;> rename_i heq
  · simp only [reduceCtorEq, false_iff]
    exact fun hmac => heq (by simpa using hmac.symm)
  · simp only [true_iff]
    rw [ne_eq, not_not] at heq
    simpa using heq.symm

theorem verifyTsigMac_sign (hmac : Hmac) (key : TsigKey) (input : List UInt8) :
    verifyTsigMac hmac key input (key.sign hmac input) = .ok () :=
  (verifyTsigMac_ok_iff hmac input (length_sign hmac key input).le).mpr (take_length).symm

variable (hmac : Hmac) (key : TsigKey) (originalId : UInt16) (timeSigned : UInt64) (fudge : UInt16)
  (input : List UInt8)

theorem timeSigned_signedTsig (h : timeSigned.toNat < 2 ^ 48) :
    (signedTsig hmac key originalId timeSigned fudge input).timeSigned = timeSigned := by
  show UInt64.ofNat (timeSigned.toNat % 2 ^ 48) = timeSigned
  rw [Nat.mod_eq_of_lt h, UInt64.ofNat_toNat]

theorem algorithm_signedTsig :
    (signedTsig hmac key originalId timeSigned fudge input).algorithm = some key.algorithm := by
  rw [signedTsig, parsedFields]
  rw [parse_algorithmOwner]

theorem validateTsigIdentity_signedTsig :
    validateTsigIdentity key (signedTsig hmac key originalId timeSigned fudge input) = .ok () := by
  have hname : (signedTsig hmac key originalId timeSigned fudge input).owner.canonicalKey =
      key.name.canonicalKey :=
    (DomainName.canonicalKey_inj _ _).mpr key.name.toAsciiLowercased_lowerLabels
  rw [validateTsigIdentity, if_neg (not_not.mpr hname),
    if_neg (not_not.mpr (algorithm_signedTsig hmac key originalId timeSigned fudge input))]

theorem validateProtocolMacLength_sign :
    validateProtocolMacLength key.algorithm (key.sign hmac input) = .ok () := by
  have hmac := macLen_pos key.algorithm
  rw [validateProtocolMacLength, length_sign, TsigAlgorithm.minMacLen, if_neg (by omega)]

variable {message : List UInt8} {arcount : UInt16} {timeSigned fudge} {now : UInt64}

/-- A signed request comes back with its MAC and its time. -/
theorem verifyRequest_signRequest (h : Signable message arcount) (htime : timeSigned.toNat < 2 ^ 48)
    (hnow : WithinFudge timeSigned fudge now) :
    ∃ signed, signRequest hmac message key timeSigned fudge = .ok signed ∧
      verifyRequest hmac signed.message key now = .ok ⟨message, signed.mac, timeSigned⟩ := by
  obtain ⟨id, hid⟩ := h.exists_id
  set input := message ++ coveredFields key timeSigned fudge tsigErrorNoerror []
  have hsign : signRequest hmac message key timeSigned fudge =
      signMessage hmac key message timeSigned fudge (.ok input) := by
    rw [signRequest, tsigVariables_eq]
    rfl
  have htsig := timeSigned_signedTsig hmac key id timeSigned fudge input htime
  have hstructure : validateRequestTsigStructure (signedTsig hmac key id timeSigned fudge input) =
      .ok () := by
    rw [validateRequestTsigStructure, if_neg (by simp [signedTsig, parsedFields]),
      algorithm_signedTsig]
    exact validateProtocolMacLength_sign hmac key input
  rw [signMessage_eq hmac key h hid timeSigned fudge input] at hsign
  refine ⟨_, hsign, ?_⟩
  rw [verifyRequest, removeTsig_signedPacket hmac key h hid, ok_bind]
  dsimp only
  rw [validateTsigIdentity_signedTsig, ok_bind, hstructure, ok_bind, tsigVariables_eq, htsig,
    ok_bind]
  show (verifyTsigMac hmac key input (key.sign hmac input) >>= _) = _
  rw [verifyTsigMac_sign, ok_bind]
  show (validateTsigTime timeSigned fudge now >>= _) = _
  rw [(validateTsigTime_ok_iff _ _ _).mpr hnow]
  rfl

/-- A signed response comes back with its MAC and its time. -/
theorem verifyResponse_signResponse (h : Signable message arcount) (requestMac : List UInt8)
    (htime : timeSigned.toNat < 2 ^ 48) (hnow : WithinFudge timeSigned fudge now) :
    ∃ signed, signResponse hmac message key requestMac timeSigned fudge = .ok signed ∧
      verifyResponse hmac signed.message key requestMac now = .ok
        ⟨message, signed.mac, timeSigned⟩ := by
  obtain ⟨id, hid⟩ := h.exists_id
  set input :=
    responseMacInput requestMac message (coveredFields key timeSigned fudge tsigErrorNoerror [])
  have hsign : signResponse hmac message key requestMac timeSigned fudge =
      signMessage hmac key message timeSigned fudge (.ok input) := by
    rw [signResponse, tsigVariables_eq]
    rfl
  have htsig := timeSigned_signedTsig hmac key id timeSigned fudge input htime
  rw [signMessage_eq hmac key h hid timeSigned fudge input] at hsign
  refine ⟨_, hsign, ?_⟩
  rw [verifyResponse, removeTsig_signedPacket hmac key h hid, ok_bind]
  dsimp only
  rw [validateTsigIdentity_signedTsig, ok_bind, if_neg (by simp [isUnsignedTsigError,
    signedTsig, parsedFields, tsigErrorNoerror, tsigErrorBadkey, tsigErrorBadsig])]
  show (validateProtocolMacLength key.algorithm (key.sign hmac input) >>= _) = _
  rw [validateProtocolMacLength_sign, ok_bind, tsigVariables_eq, htsig, ok_bind]
  show (verifyTsigMac hmac key input (key.sign hmac input) >>= _) = _
  rw [verifyTsigMac_sign, ok_bind, if_neg (by simp [signedTsig, parsedFields])]
  show (validateTsigTime timeSigned fudge now >>= _) = _
  rw [(validateTsigTime_ok_iff _ _ _).mpr hnow]
  rfl

end Verifying

section Streams

/-- A message of a stream after the first. -/
inductive StreamItem
  | signed (message : List UInt8) (timeSigned : UInt64) (fudge : UInt16)
  | unsigned (message : List UInt8)

def StreamItem.message : StreamItem → List UInt8
  | signed message _ _ => message
  | unsigned message => message

/-- The later messages of a stream, signed with `sign_tcp_response_continuation`. -/
def signStream (hmac : Hmac) (key : TsigKey) (priorMac : List UInt8) :
    List StreamItem → Outcome TsigError (List (List UInt8))
  | [] => .ok []
  | .unsigned message :: rest => do
    let others ← signStream hmac key priorMac rest
    .ok (message :: others)
  | .signed message timeSigned fudge :: rest => do
    let signed ← signTcpResponseContinuation hmac message key priorMac timeSigned fudge
    let others ← signStream hmac key signed.mac rest
    .ok (signed.message :: others)

/-- The later messages of a stream in which a signature covers all messages since
the one before it. -/
def coverStream (hmac : Hmac) (key : TsigKey) (priorMac : List UInt8)
    (pending : List (List UInt8)) : List StreamItem → Outcome TsigError (List (List UInt8))
  | [] => .ok []
  | .unsigned message :: rest => do
    let others ← coverStream hmac key priorMac (pending ++ [message]) rest
    .ok (message :: others)
  | .signed message timeSigned fudge :: rest => do
    let signed ← signMessage hmac key message timeSigned fudge
      (.ok (tcpMacInput priorMac (pending ++ [message]) timeSigned fudge))
    let others ← coverStream hmac key signed.mac [] rest
    .ok (signed.message :: others)

variable {items : List StreamItem}

/-- Where every message is signed the two streams are one. -/
theorem coverStream_eq_signStream (hmac : Hmac) (key : TsigKey) (priorMac : List UInt8)
    (h : ∀ item ∈ items, ∃ message timeSigned fudge, item = .signed message timeSigned fudge) :
    coverStream hmac key priorMac [] items = signStream hmac key priorMac items := by
  induction items generalizing priorMac with
  | nil => rfl
  | cons item rest ih =>
    obtain ⟨message, timeSigned, fudge, rfl⟩ := h item (mem_cons_self ..)
    have hrest := fun other hother => h other (mem_cons_of_mem _ hother)
    rw [coverStream, signStream, signTcpResponseContinuation, tcpMacInput, nil_append,
      flatten_singleton]
    refine congrArg _ (funext fun signed => ?_)
    rw [ih signed.mac hrest]

/-- The messages of a stream are plain, the signed ones have room for the record and
are signed in order of time, and at most 99 unsigned ones stand between two of them,
none at the end. -/
def StreamFits (now : UInt64) : UInt64 → ℕ → List StreamItem → Prop
  | _, pending, [] => pending = 0
  | last, pending, .unsigned message :: rest =>
    (∃ arcount, PlainMessage message arcount) ∧ pending < 99 ∧
      StreamFits now last (pending + 1) rest
  | last, _, .signed message timeSigned fudge :: rest =>
    (∃ arcount, Signable message arcount) ∧ timeSigned.toNat < 2 ^ 48 ∧
      last.toNat ≤ timeSigned.toNat ∧
      WithinFudge timeSigned fudge now ∧ StreamFits now timeSigned 0 rest

variable (hmac : Hmac) (key : TsigKey) {now : UInt64}

/-- A message that is signed over `input` passes the checks of the stream exactly
when the MAC over `input` is that over the messages since the last signature. -/
theorem streamStep_signed {message : List UInt8} {arcount originalId : UInt16}
    (h : Signable message arcount) (hid : At message 0 (be16 originalId)) {timeSigned : UInt64}
    {fudge : UInt16} (htime : timeSigned.toNat < 2 ^ 48) (state : StreamState) (input : List UInt8)
    (hlast : state.lastTimeSigned.toNat ≤ timeSigned.toNat)
    (hnow : WithinFudge timeSigned fudge now) :
    streamStep hmac key now state
      (signedPacket hmac key message arcount originalId timeSigned fudge input) =
      if key.sign hmac
        (tcpMacInput state.priorMac (state.pendingUnsigned ++ [message]) timeSigned fudge) ≠
          key.sign hmac input then .error .invalidMac
      else .ok ⟨state.unsignedMessages ++ [message], timeSigned, key.sign hmac input, [],
        true⟩ := by
  have htsig := timeSigned_signedTsig hmac key originalId timeSigned fudge input htime
  have hslice : ∀ covered : List UInt8,
      (Outcome.slice (key.sign hmac covered) 0 (key.sign hmac input).length :
      Outcome TsigError (List UInt8)) = .ok (key.sign hmac covered) := by
    intro covered
    have hlen : (key.sign hmac input).length = (key.sign hmac covered).length := by
      rw [length_sign, length_sign]
    rw [hlen, slice_eq_ok ⟨Nat.zero_le _, le_rfl⟩, drop_zero, Nat.sub_zero, take_length]
  rw [streamStep, removeTsig_signedPacket hmac key h hid]
  dsimp only
  rw [signedStreamStep, validateTsigIdentity_signedTsig, ok_bind]
  show (validateProtocolMacLength key.algorithm (key.sign hmac input) >>= _) = _
  rw [validateProtocolMacLength_sign, ok_bind, verifyTcpTsigMac, htsig]
  show (verifyTsigMac hmac key (tcpMacInput state.priorMac (state.pendingUnsigned ++ [message])
    timeSigned fudge) (key.sign hmac input) >>= _) = _
  rw [verifyTsigMac, hslice, ok_bind]
  split
  · rfl
  · rw [ok_bind, if_neg (by rw [UInt64.lt_iff_toNat_lt]; omega), validateAuthenticatedResponseError,
      if_neg (by simp [signedTsig, parsedFields]), ok_bind]
    show (validateTsigTime timeSigned fudge now >>= _) = _
    rw [(validateTsigTime_ok_iff _ _ _).mpr hnow]
    rfl

/-- A stream whose signatures cover the messages before them passes the loop. -/
theorem foldlM_coverStream (state : StreamState)
    (hfits : StreamFits now state.lastTimeSigned state.pendingUnsigned.length items)
    (hterminal : state.lastMessageHadTsig = state.pendingUnsigned.isEmpty) :
    ∃ received, coverStream hmac key state.priorMac state.pendingUnsigned items = .ok received ∧
      ∃ final, received.foldlM (streamStep hmac key now) state = .ok final ∧
      final.lastMessageHadTsig = true ∧
        final.unsignedMessages = state.unsignedMessages ++ items.map StreamItem.message := by
  induction items generalizing state with
  | nil =>
    refine ⟨[], rfl, state, rfl, ?_, by simp⟩
    have hnone : state.pendingUnsigned.length = 0 := hfits
    rw [hterminal, length_eq_zero_iff.mp hnone]
    rfl
  | cons item rest ih =>
    cases item with
    | unsigned message =>
      obtain ⟨⟨arcount, hplain⟩, hfew, hrest⟩ := hfits
      set next : StreamState := { state with
        unsignedMessages := state.unsignedMessages ++ [message]
        pendingUnsigned := state.pendingUnsigned ++ [message]
        lastMessageHadTsig := false }
      have hlen : next.pendingUnsigned.length = state.pendingUnsigned.length + 1 := by
        simp [next]
      rw [← hlen] at hrest
      obtain ⟨received, hcover, final, hfinal, hsigned, hmessages⟩ := ih next hrest (by simp [next])
      refine ⟨message :: received, ?_, final, ?_, hsigned, ?_⟩
      · have hcover' : coverStream hmac key state.priorMac (state.pendingUnsigned ++
          [message]) rest = .ok received := hcover
        rw [coverStream, hcover']
        rfl
      · rw [foldlM_cons, streamStep, removeTsig_eq_owned,
          removeTsigOwned_missing (finalTsigRecordView_of_plain hplain)]
        rw [if_neg (by omega)]
        exact hfinal
      · rw [hmessages]
        simp [next, StreamItem.message]
    | signed message timeSigned fudge =>
      obtain ⟨⟨arcount, hsignable⟩, htime, hlast, hnow, hrest⟩ := hfits
      obtain ⟨id, hid⟩ := hsignable.exists_id
      set input :=
        tcpMacInput state.priorMac (state.pendingUnsigned ++ [message]) timeSigned fudge with hinput
      set next : StreamState :=
        ⟨state.unsignedMessages ++ [message], timeSigned, key.sign hmac input, [], true⟩
      obtain ⟨received, hcover, final, hfinal, hsigned, hmessages⟩ := ih next hrest rfl
      refine ⟨signedPacket hmac key message arcount id timeSigned fudge input :: received, ?_,
        final, ?_, hsigned, ?_⟩
      · have hcover' : coverStream hmac key (key.sign hmac input) [] rest = .ok received := hcover
        rw [coverStream, ← hinput, signMessage_eq hmac key hsignable hid, ok_bind, hcover', ok_bind]
      · rw [foldlM_cons, streamStep_signed hmac key hsignable hid htime state input hlast hnow,
          if_neg (by simp [hinput])]
        exact hfinal
      · rw [hmessages]
        simp [next, StreamItem.message]

end Streams

end BoronDns
