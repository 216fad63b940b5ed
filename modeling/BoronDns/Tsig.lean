import BoronDns.Lib.Outcome
import BoronDns.NameKey
import BoronDns.NameWire

/-!
Transaction signatures. A signer appends a TSIG record whose MAC covers the
message and the variables of the record; a verifier finds the record at the end
of the additional section, strips it and computes the MAC again. In a stream of
TCP responses the first message is signed like a single response, and a later
signature covers the messages since the one before it, with the timers only. The
keyed hash is a parameter of which only the length of its result is known.
-/

namespace BoronDns

open Bytes

variable (hmac : Hmac) (algorithm : TsigAlgorithm)

inductive TsigError
  | invalidKeyName
  | unsupportedAlgorithm (name : List UInt8)
  | invalidSecret
  | emptySecret
  | invalidHmacKey
  | malformedMessage
  | additionalRecordCountOverflow
  | missingTsig
  | missingTerminalTsig
  | tooManyUnsignedMessages
  | nonMonotonicTimeSigned
  | misplacedTsig
  | malformedTsig
  | keyMismatch
  | algorithmMismatch
  | invalidMac
  | badTrunc
  | timeOutsideFudge
  | responseError (code : UInt16)
  deriving DecidableEq

inductive TsigAlgorithm
  | hmacSha1
  | hmacSha256
  | hmacSha384
  | hmacSha512
  deriving DecidableEq

def dnsHeaderArcountOffset : ℕ := 10

def dnsHeaderIdOffset : ℕ := 0

def dnsClassAny : UInt16 := 255

def tsigRrType : UInt16 := 250

def tsigTtl : UInt32 := 0

def tsigErrorNoerror : UInt16 := 0

def tsigErrorBadsig : UInt16 := 16

def tsigErrorBadkey : UInt16 := 17

def DomainName.fromAbsoluteStr (name : List UInt8) : Except DnsParseError DomainName :=
  if name = [46] then .ok root
  else if name.getLast? = some 46 then
    let labels := name.dropLast.splitOn 46
    if h : ∀ label ∈ labels, 0 < label.length ∧ label.length ≤ 63 then
      if 255 < (labels.map fun label => 1 + label.length).sum + 1 then .error .formErr
      else .ok ⟨labels, h⟩
    else .error .formErr
  else .error .formErr

def isAsciiWhitespace (byte : UInt8) : Bool :=
  byte == 9 || byte == 10 || byte == 11 || byte == 12 || byte == 13 || byte == 32

/-- Trim, drop the dots at the end, lowercase; canonical keys are ASCII. -/
def canonicalAlgorithmName (name : List UInt8) : List UInt8 :=
  let trimmed := ((name.dropWhile isAsciiWhitespace).reverse.dropWhile isAsciiWhitespace).reverse
  ((trimmed.reverse.dropWhile (· == 46)).reverse).map toAsciiLowercase

namespace TsigAlgorithm

/-- The text, `hmac-sha1` and so on. -/
def name : TsigAlgorithm → List UInt8
  | hmacSha1 => [104, 109, 97, 99, 45, 115, 104, 97, 49]
  | hmacSha256 => [104, 109, 97, 99, 45, 115, 104, 97, 50, 53, 54]
  | hmacSha384 => [104, 109, 97, 99, 45, 115, 104, 97, 51, 56, 52]
  | hmacSha512 => [104, 109, 97, 99, 45, 115, 104, 97, 53, 49, 50]

def parse (text : List UInt8) : Except TsigError TsigAlgorithm :=
  let canonical := canonicalAlgorithmName text
  if canonical = hmacSha1.name then .ok hmacSha1
  else if canonical = hmacSha256.name then .ok hmacSha256
  else if canonical = hmacSha384.name then .ok hmacSha384
  else if canonical = hmacSha512.name then .ok hmacSha512
  else .error (.unsupportedAlgorithm canonical)

def macLen : TsigAlgorithm → ℕ
  | hmacSha1 => 20
  | hmacSha256 => 32
  | hmacSha384 => 48
  | hmacSha512 => 64

def minMacLen : ℕ := algorithm.macLen / 2

end TsigAlgorithm

/-- The HMAC crate: any secret is taken, and the digest has the length of its hash. -/
structure Hmac where
  mac : TsigAlgorithm → List UInt8 → List UInt8 → List UInt8
  length_mac : ∀ algorithm secret message, (mac algorithm secret message).length = algorithm.macLen

/-- A key; its name comes from a text or a message, and so fits in 255 octets. -/
structure TsigKey where
  name : DomainName
  algorithm : TsigAlgorithm
  secret : List UInt8
  name_fits : name.wireLen ≤ 255

def TsigKey.sign (key : TsigKey) (message : List UInt8) : List UInt8 :=
  hmac.mac key.algorithm key.secret message

structure SignedMessage where
  message : List UInt8
  mac : List UInt8
  deriving DecidableEq

structure VerifiedMessage where
  message : List UInt8
  mac : List UInt8
  timeSigned : UInt64
  deriving DecidableEq

structure TsigRecordFields where
  timeSigned : UInt64
  fudge : UInt16
  mac : List UInt8
  originalId : UInt16
  error : UInt16
  otherData : List UInt8

structure ParsedTsig where
  owner : DomainName
  algorithmName : DomainName
  algorithm : Option TsigAlgorithm
  timeSigned : UInt64
  fudge : UInt16
  mac : List UInt8
  originalId : UInt16
  error : UInt16
  otherData : List UInt8

structure RecordView where
  owner : DomainName
  rrType : UInt16
  cls : UInt16
  ttl : UInt32
  rdata : List UInt8
  start : ℕ
  stop : ℕ

/-- The six octets that `append_u48` writes. -/
def u48Wire (value : UInt64) : List UInt8 :=
  let value := value.toNat % 2 ^ 48
  be16 (UInt16.ofNat (value / 2 ^ 32)) ++ be32 (UInt32.ofNat (value % 2 ^ 32))

def u48FromWire (bytes : List UInt8) : Outcome TsigError UInt64 := do
  let high ← Outcome.u16At bytes 0
  let low ← Outcome.u32At bytes 2
  .ok (UInt64.ofNat (high.toNat * 2 ^ 32 + low.toNat))

def canonicalNameWire (name : DomainName) : List UInt8 := name.toAsciiLowercased.toWire

/-- The name of the algorithm with the final dot; the source expects it to parse. -/
def algorithmDomainName : Outcome TsigError DomainName :=
  match DomainName.fromAbsoluteStr (algorithm.name ++ [46]) with
  | .ok name => .ok name
  | .error _ => .stopped

def algorithmNameWire : Outcome TsigError (List UInt8) := do
  let name ← algorithmDomainName algorithm
  .ok name.toWire

def tsigVariables (key : TsigKey) (timeSigned : UInt64) (fudge error : UInt16)
    (otherData : List UInt8) : Outcome TsigError (List UInt8) := do
  let algorithmWire ← algorithmNameWire key.algorithm
  .ok (canonicalNameWire key.name ++ be16 dnsClassAny ++ be32 tsigTtl ++ algorithmWire ++
    u48Wire timeSigned ++ be16 fudge ++ be16 error ++
    be16 (UInt16.ofNat otherData.length) ++ otherData)

def tsigRdata (algorithmName : DomainName) (fields : TsigRecordFields) : List UInt8 :=
  canonicalNameWire algorithmName ++ u48Wire fields.timeSigned ++ be16 fields.fudge ++
    be16 (UInt16.ofNat fields.mac.length) ++ fields.mac ++ be16 fields.originalId ++
    be16 fields.error ++ be16 (UInt16.ofNat fields.otherData.length) ++ fields.otherData

variable (message : List UInt8)

def appendTsigRrForNames (keyName algorithmName : DomainName) (fields : TsigRecordFields) :
    List UInt8 :=
  let rdata := tsigRdata algorithmName fields
  message ++ canonicalNameWire keyName ++ be16 tsigRrType ++ be16 dnsClassAny ++ be32 tsigTtl ++
    be16 (UInt16.ofNat rdata.length) ++ rdata

def appendTsigRr (key : TsigKey) (fields : TsigRecordFields) : Outcome TsigError (List UInt8) := do
  let algorithmName ← algorithmDomainName key.algorithm
  .ok (appendTsigRrForNames message key.name algorithmName fields)

/-- The count of additional records after one more, unless it would overflow. -/
def signedArcount : Outcome TsigError UInt16 := do
  let arcount ← Outcome.u16At message dnsHeaderArcountOffset
  if arcount.toNat + 1 < 65536 then .ok (arcount + 1) else .error .additionalRecordCountOverflow

/-- The common body of the signing functions: the MAC over `macInput`, and the
message with its count of additional records raised and the record appended. -/
def signMessage (key : TsigKey) (message : List UInt8) (timeSigned : UInt64) (fudge : UInt16)
    (macInput : Outcome TsigError (List UInt8)) : Outcome TsigError SignedMessage :=
  if message.length < dnsHeaderLen then .error .malformedMessage
  else do
    let originalId ← Outcome.u16At message dnsHeaderIdOffset
    let arcount ← signedArcount message
    let input ← macInput
    let mac := key.sign hmac input
    let counted ← Outcome.write message dnsHeaderArcountOffset (be16 arcount)
    let signed ← appendTsigRr counted key ⟨timeSigned, fudge, mac, originalId, tsigErrorNoerror, []⟩
    .ok ⟨signed, mac⟩

/-- The MAC of a request or answer before it, behind its length. -/
def priorMacWire (mac : List UInt8) : List UInt8 := be16 (UInt16.ofNat mac.length) ++ mac

def responseMacInput (requestMac message covered : List UInt8) : List UInt8 :=
  priorMacWire requestMac ++ message ++ covered

/-- What the MAC of a continuation covers. -/
def tcpMacInput (priorMac : List UInt8) (messages : List (List UInt8)) (timeSigned : UInt64)
    (fudge : UInt16) : List UInt8 :=
  priorMacWire priorMac ++ messages.flatten ++ u48Wire timeSigned ++ be16 fudge

def signRequest (key : TsigKey) (timeSigned : UInt64) (fudge : UInt16) :
    Outcome TsigError SignedMessage :=
  signMessage hmac key message timeSigned fudge do
    let covered ← tsigVariables key timeSigned fudge tsigErrorNoerror []
    .ok (message ++ covered)

def signResponse (key : TsigKey) (requestMac : List UInt8) (timeSigned : UInt64)
    (fudge : UInt16) : Outcome TsigError SignedMessage :=
  signMessage hmac key message timeSigned fudge do
    let covered ← tsigVariables key timeSigned fudge tsigErrorNoerror []
    .ok (responseMacInput requestMac message covered)

def signTcpResponseContinuation (key : TsigKey) (priorMac : List UInt8)
    (timeSigned : UInt64) (fudge : UInt16) : Outcome TsigError SignedMessage :=
  signMessage hmac key message timeSigned fudge
    (.ok (priorMacWire priorMac ++ message ++ u48Wire timeSigned ++ be16 fudge))

section Reading

/-- The loop of `scan_compressed_name` with no name expected; only the number of
bytes in place is kept. -/
def skipNameLoop (packet : List UInt8) (offset pos : ℕ) (consumed : Option ℕ)
    (followedPointers totalLen : ℕ) : Except DnsParseError ℕ :=
  match packet[pos]? with
  | none => .error .formErr
  | some len =>
    if len &&& 0xc0 = 0xc0 then
      match packet[pos + 1]? with
      | none => .error .formErr
      | some next =>
        if pos ≤ pointerTarget len next then .error .formErr
        else if hpointers : maxCompressedNamePointers ≤ followedPointers then .error .formErr
        else
          skipNameLoop packet offset (pointerTarget len next)
            (some (consumed.getD (pos + 2 - offset))) (followedPointers + 1) totalLen
    else if len &&& 0xc0 = 0 then
      if len = 0 then .ok (consumed.getD (pos + 1 - offset))
      else if 63 < len.toNat ∨ packet.length < pos + 1 + len.toNat then .error .formErr
      else if htotal : 255 < totalLen + (1 + len.toNat) then .error .formErr
      else skipNameLoop packet offset (pos + 1 + len.toNat) consumed followedPointers
        (totalLen + (1 + len.toNat))
    else .error .formErr
  termination_by maxCompressedNamePointers - followedPointers + (256 - totalLen)
  decreasing_by
    · omega
    · omega

def skipCompressedName (packet : List UInt8) (offset : ℕ) : Except DnsParseError ℕ :=
  skipNameLoop packet offset offset none 0 1

def skipQuestions (message : List UInt8) : ℕ → ℕ → Outcome TsigError ℕ
  | 0, offset => .ok offset
  | count + 1, offset => do
    let consumed ← Outcome.ofExcept (fun _ => .malformedMessage) (skipCompressedName message offset)
    if message.length < offset + consumed + 4 then .error .malformedMessage
    else skipQuestions message count (offset + consumed + 4)

variable (message : List UInt8)

def parseRecordView (start : ℕ) : Outcome TsigError RecordView := do
  let (owner, consumed) ← Outcome.ofExcept (fun _ => .malformedMessage)
    (DomainName.parse message start)
  let offset := start + consumed
  if message.length < offset + 10 then .error .malformedMessage
  else do
    let rrType ← Outcome.u16At message offset
    let cls ← Outcome.u16At message (offset + 2)
    let ttl ← Outcome.u32At message (offset + 4)
    let rdlength ← Outcome.u16At message (offset + 8)
    if message.length < offset + 10 + rdlength.toNat then .error .malformedMessage
    else do
      let rdata ← Outcome.slice message (offset + 10) (offset + 10 + rdlength.toNat)
      .ok ⟨owner, rrType, cls, ttl, rdata, start, offset + 10 + rdlength.toNat⟩

/-- The loops over the answer and authority records, in which no TSIG may stand. -/
def skipRecords (message : List UInt8) : ℕ → ℕ → Outcome TsigError ℕ
  | 0, offset => .ok offset
  | count + 1, offset => do
    let record ← parseRecordView message offset
    if record.rrType = tsigRrType then .error .misplacedTsig
    else skipRecords message count record.stop

/-- The loop over the additional records: `index` is the one to read next, and
`remaining` are left. -/
def additionalRecords (message : List UInt8) (arcount : UInt16) :
    ℕ → UInt16 → ℕ → Option RecordView → Outcome TsigError (ℕ × Option RecordView)
  | 0, _, offset, view => .ok (offset, view)
  | remaining + 1, index, offset, view => do
    let record ← parseRecordView message offset
    if record.rrType = tsigRrType then do
      let next ← Outcome.addU16 index 1
      if next ≠ arcount then .error .misplacedTsig
      else additionalRecords message arcount remaining (index + 1) record.stop (some record)
    else additionalRecords message arcount remaining (index + 1) record.stop view

def finalTsigRecordView : Outcome TsigError (Option RecordView) :=
  if message.length < dnsHeaderLen then .error .malformedMessage
  else do
    let qdcount ← Outcome.u16At message 4
    let ancount ← Outcome.u16At message 6
    let nscount ← Outcome.u16At message 8
    let arcount ← Outcome.u16At message 10
    let offset ← skipQuestions message qdcount.toNat dnsHeaderLen
    let offset ← skipRecords message ancount.toNat offset
    let offset ← skipRecords message nscount.toNat offset
    let (offset, view) ← additionalRecords message arcount arcount.toNat 0 offset none
    if offset ≠ message.length then .error .malformedMessage else .ok view

def parseTsigRecord (record : RecordView) : Outcome TsigError ParsedTsig :=
  if record.cls ≠ dnsClassAny ∨ record.ttl ≠ tsigTtl then .error .malformedTsig
  else do
    let rdata := record.rdata
    let (algorithmName, consumed) ← Outcome.ofExcept (fun _ => .malformedTsig)
      (DomainName.parse rdata 0)
    let algorithm := (TsigAlgorithm.parse algorithmName.canonicalKey).toOption
    if rdata.length < consumed + 6 + 2 + 2 then .error .malformedTsig
    else do
      let timeBytes ← Outcome.slice rdata consumed (consumed + 6)
      let timeSigned ← u48FromWire timeBytes
      let fudge ← Outcome.u16At rdata (consumed + 6)
      let macLen ← Outcome.u16At rdata (consumed + 8)
      let offset := consumed + 10
      if rdata.length < offset + macLen.toNat + 2 + 2 + 2 then .error .malformedTsig
      else do
        let mac ← Outcome.slice rdata offset (offset + macLen.toNat)
        let offset := offset + macLen.toNat
        let originalId ← Outcome.u16At rdata offset
        let error ← Outcome.u16At rdata (offset + 2)
        let otherLen ← Outcome.u16At rdata (offset + 4)
        let offset := offset + 6
        if offset + otherLen.toNat ≠ rdata.length then .error .malformedTsig
        else do
          let otherData ← Outcome.slice rdata offset (offset + otherLen.toNat)
          .ok ⟨record.owner, algorithmName, algorithm, timeSigned, fudge, mac, originalId, error,
            otherData⟩

/-- The record at the end, or the error that there is none. -/
def requireTsig : Outcome TsigError RecordView := do
  match ← finalTsigRecordView message with
  | some view => .ok view
  | none => .error .missingTsig

/-- The header of a message whose TSIG is stripped. -/
def restoreHeader (originalId arcount : UInt16) : Outcome TsigError (List UInt8) := do
  let identified ← Outcome.write message dnsHeaderIdOffset (be16 originalId)
  let fewer ← Outcome.subU16 arcount 1
  Outcome.write identified dnsHeaderArcountOffset (be16 fewer)

def removeTsig : Outcome TsigError (List UInt8 × ParsedTsig) :=
  if message.length < dnsHeaderLen then .error .malformedMessage
  else do
    let arcount ← Outcome.u16At message 10
    let view ← requireTsig message
    let tsig ← parseTsigRecord view
    let front ← Outcome.slice message 0 view.start
    let back ← Outcome.slice message view.stop message.length
    let unsigned ← restoreHeader (front ++ back) tsig.originalId arcount
    .ok (unsigned, tsig)

def removeTsigOwned : Outcome TsigError (List UInt8 × ParsedTsig) :=
  if message.length < dnsHeaderLen then .error .malformedMessage
  else do
    let arcount ← Outcome.u16At message 10
    let view ← requireTsig message
    let tsig ← parseTsigRecord view
    let unsigned ← restoreHeader (message.take view.start) tsig.originalId arcount
    .ok (unsigned, tsig)

end Reading

section Verification

variable (key : TsigKey) (tsig : ParsedTsig)

def validateTsigIdentity : Outcome TsigError Unit :=
  if tsig.owner.canonicalKey ≠ key.name.canonicalKey then .error .keyMismatch
  else if tsig.algorithm ≠ some key.algorithm then .error .algorithmMismatch
  else .ok ()

def validateProtocolMacLength (receivedMac : List UInt8) : Outcome TsigError Unit :=
  if receivedMac.length < algorithm.minMacLen ∨ algorithm.macLen < receivedMac.length then
    .error .malformedTsig
  else .ok ()

def validateRequestTsigStructure : Outcome TsigError Unit :=
  if tsig.error ≠ tsigErrorNoerror then .error .malformedTsig
  else
    match tsig.algorithm with
    | some algorithm => validateProtocolMacLength algorithm tsig.mac
    | none => .ok ()

def isUnsignedTsigError : Bool :=
  tsig.mac.isEmpty && (tsig.error == tsigErrorBadkey || tsig.error == tsigErrorBadsig) &&
    tsig.otherData.isEmpty

def validateAuthenticatedResponseError : Outcome TsigError Unit :=
  if tsig.error ≠ tsigErrorNoerror then .error (.responseError tsig.error) else .ok ()

/-- `u64::saturating_add`. -/
def saturatingAdd64 (left right : ℕ) : ℕ := min (left + right) (2 ^ 64 - 1)

def validateTsigTime (timeSigned : UInt64) (fudge : UInt16) (now : UInt64) :
    Outcome TsigError Unit :=
  if saturatingAdd64 now.toNat fudge.toNat < timeSigned.toNat ∨
      saturatingAdd64 timeSigned.toNat fudge.toNat < now.toNat then .error .timeOutsideFudge
  else .ok ()

/-- The received MAC may be cut short; a longer one is out of range. -/
def verifyTsigMac (macInput receivedMac : List UInt8) : Outcome TsigError Unit := do
  let expected ← Outcome.slice (key.sign hmac macInput) 0 receivedMac.length
  if expected ≠ receivedMac then .error .invalidMac else .ok ()

def verifyResponse (message : List UInt8) (key : TsigKey) (requestMac : List UInt8) (now : UInt64) :
    Outcome TsigError VerifiedMessage := do
  let (unsigned, tsig) ← removeTsig message
  validateTsigIdentity key tsig
  if isUnsignedTsigError tsig then .error (.responseError tsig.error)
  else do
    validateProtocolMacLength key.algorithm tsig.mac
    let covered ← tsigVariables key tsig.timeSigned tsig.fudge tsig.error tsig.otherData
    verifyTsigMac hmac key (responseMacInput requestMac unsigned covered) tsig.mac
    if tsig.error ≠ tsigErrorNoerror then .error (.responseError tsig.error)
    else do
      validateTsigTime tsig.timeSigned tsig.fudge now
      .ok ⟨unsigned, tsig.mac, tsig.timeSigned⟩

def verifyResponseOwned (message : List UInt8) (key : TsigKey) (requestMac : List UInt8)
    (now : UInt64) : Outcome TsigError VerifiedMessage := do
  let (unsigned, tsig) ← removeTsigOwned message
  validateTsigIdentity key tsig
  if isUnsignedTsigError tsig then .error (.responseError tsig.error)
  else do
    validateProtocolMacLength key.algorithm tsig.mac
    let covered ← tsigVariables key tsig.timeSigned tsig.fudge tsig.error tsig.otherData
    verifyTsigMac hmac key (responseMacInput requestMac unsigned covered) tsig.mac
    validateAuthenticatedResponseError tsig
    validateTsigTime tsig.timeSigned tsig.fudge now
    .ok ⟨unsigned, tsig.mac, tsig.timeSigned⟩

def verifyRequest (message : List UInt8) (key : TsigKey) (now : UInt64) :
    Outcome TsigError VerifiedMessage := do
  let (unsigned, tsig) ← removeTsig message
  validateTsigIdentity key tsig
  validateRequestTsigStructure tsig
  let covered ← tsigVariables key tsig.timeSigned tsig.fudge tsig.error tsig.otherData
  verifyTsigMac hmac key (unsigned ++ covered) tsig.mac
  validateTsigTime tsig.timeSigned tsig.fudge now
  .ok ⟨unsigned, tsig.mac, tsig.timeSigned⟩

variable (priorMac : List UInt8)

def verifyTcpTsigMac (messagesSinceTsig : List (List UInt8))
    (tsig : ParsedTsig) : Outcome TsigError Unit :=
  verifyTsigMac hmac key (tcpMacInput priorMac messagesSinceTsig tsig.timeSigned tsig.fudge)
    tsig.mac

def verifyTcpTsigMacWithCurrent (messagesSinceTsig : List (List UInt8))
    (current : List UInt8) (tsig : ParsedTsig) : Outcome TsigError Unit :=
  verifyTsigMac hmac key
    (priorMacWire priorMac ++ messagesSinceTsig.flatten ++ current ++ u48Wire tsig.timeSigned ++
      be16 tsig.fudge) tsig.mac

/-- What `verify_tcp_response_stream` keeps between two messages. -/
structure StreamState where
  unsignedMessages : List (List UInt8)
  lastTimeSigned : UInt64
  priorMac : List UInt8
  pendingUnsigned : List (List UInt8)
  lastMessageHadTsig : Bool

/-- A signed message of the stream after the first. -/
def signedStreamStep (now : UInt64) (state : StreamState) (unsigned : List UInt8)
    (tsig : ParsedTsig) : Outcome TsigError StreamState := do
  validateTsigIdentity key tsig
  validateProtocolMacLength key.algorithm tsig.mac
  verifyTcpTsigMac hmac key state.priorMac (state.pendingUnsigned ++ [unsigned]) tsig
  if tsig.timeSigned < state.lastTimeSigned then .error .nonMonotonicTimeSigned
  else do
    validateAuthenticatedResponseError tsig
    validateTsigTime tsig.timeSigned tsig.fudge now
    .ok ⟨state.unsignedMessages ++ [unsigned], tsig.timeSigned, tsig.mac, [], true⟩

def streamStep (now : UInt64) (state : StreamState) (message : List UInt8) :
    Outcome TsigError StreamState :=
  match removeTsig message with
  | .ok (unsigned, tsig) => signedStreamStep hmac key now state unsigned tsig
  | .error .missingTsig =>
    if 99 ≤ state.pendingUnsigned.length then .error .tooManyUnsignedMessages
    else .ok { state with
      unsignedMessages := state.unsignedMessages ++ [message]
      pendingUnsigned := state.pendingUnsigned ++ [message]
      lastMessageHadTsig := false }
  | .error e => .error e
  | .stopped => .stopped

variable (messages : List (List UInt8))

def verifyTcpResponseStream (key : TsigKey) (requestMac : List UInt8)
    (now : UInt64) : Outcome TsigError (List (List UInt8)) :=
  match messages with
  | [] => .error .missingTsig
  | firstMessage :: rest => do
    let first ← verifyResponse hmac firstMessage key requestMac now
    let final ← rest.foldlM (streamStep hmac key now) ⟨[first.message], first.timeSigned, first.mac,
      [], true⟩
    if final.lastMessageHadTsig then .ok final.unsignedMessages else .error .missingTerminalTsig

/-- What `verify_tcp_response_stream_owned_at_times` keeps between two messages. -/
structure OwnedStreamState where
  unsignedMessages : List (List UInt8)
  lastTimeSigned : UInt64
  priorMac : List UInt8
  pendingStart : ℕ
  lastMessageHadTsig : Bool

def ownedStreamStep (state : OwnedStreamState) (received : List UInt8 × UInt64) :
    Outcome TsigError OwnedStreamState := do
  let (message, receivedAt) := received
  match ← finalTsigRecordView message with
  | some _ => do
    let (unsigned, tsig) ← removeTsigOwned message
    validateTsigIdentity key tsig
    validateProtocolMacLength key.algorithm tsig.mac
    let pending ← Outcome.slice state.unsignedMessages state.pendingStart
      state.unsignedMessages.length
    verifyTcpTsigMacWithCurrent hmac key state.priorMac pending unsigned tsig
    if tsig.timeSigned < state.lastTimeSigned then .error .nonMonotonicTimeSigned
    else do
      validateAuthenticatedResponseError tsig
      validateTsigTime tsig.timeSigned tsig.fudge receivedAt
      .ok ⟨state.unsignedMessages ++ [unsigned], tsig.timeSigned, tsig.mac,
        (state.unsignedMessages ++ [unsigned]).length, true⟩
  | none =>
    if 99 ≤ state.unsignedMessages.length - state.pendingStart then .error .tooManyUnsignedMessages
    else .ok { state with
      unsignedMessages := state.unsignedMessages ++ [message]
      lastMessageHadTsig := false }

def verifyTcpResponseStreamOwnedAtTimes (messages : List (List UInt8 × UInt64)) (key : TsigKey)
    (requestMac : List UInt8) : Outcome TsigError (List (List UInt8)) :=
  match messages with
  | [] => .error .missingTsig
  | (firstMessage, firstReceivedAt) :: rest => do
    let first ← verifyResponseOwned hmac firstMessage key requestMac firstReceivedAt
    let final ← rest.foldlM (ownedStreamStep hmac key) ⟨[first.message], first.timeSigned,
      first.mac, 1, true⟩
    if final.lastMessageHadTsig then .ok final.unsignedMessages else .error .missingTerminalTsig

def verifyTcpResponseStreamOwned (key : TsigKey) (requestMac : List UInt8)
    (now : UInt64) : Outcome TsigError (List (List UInt8)) :=
  verifyTcpResponseStreamOwnedAtTimes hmac (messages.map fun message =>
    (message, now)) key requestMac

end Verification

end BoronDns
