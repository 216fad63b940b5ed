import BoronDns.Lib.Bytes
import BoronDns.NameWire
import BoronDns.Records

/-!
The EDNS part of a request and the OPT record that answers it. The shape of
the OPT data is computed before the record is written; the options that are
then appended have exactly the length that shape announces.
-/

namespace BoronDns

open Bytes List

variable (client : List UInt8) (nsidLen : ℕ) (metadata : RequestMetadata) (options : AnswerOptions)
  (context : DnsCookieContext)

inductive Transport
  | udp
  | tcp
  | tls
  deriving DecidableEq, Repr

inductive ExtendedDnsErrorsMode
  | off
  | minimal
  deriving DecidableEq, Repr

inductive ExtendedDnsError
  | notReady
  | unsupportedNsec3Iterations
  deriving DecidableEq, Repr

def ExtendedDnsError.infoCode : ExtendedDnsError → UInt16
  | notReady => 14
  | unsupportedNsec3Iterations => 27

structure EdnsCookie where
  client : List UInt8
  client_length : client.length = 8

/-- The server cookie is a fixed prefix and a keyed hash of the client cookie,
the prefix and the client address; the hash function is a parameter. -/
structure DnsCookieContext where
  nowUnixSecs : UInt32
  keyedHash : List UInt8 → List UInt8 → List UInt8
  keyedHash_length : ∀ client cookiePrefix, (keyedHash client cookiePrefix).length = 8

structure EdnsMetadata where
  payloadSize : UInt16
  doBit : Bool
  tcpKeepaliveRequested : Bool
  nsidRequested : Bool
  cookie : Option EdnsCookie
  paddingRequested : Bool

structure RequestMetadata where
  edns : Option EdnsMetadata
  extendedRcode : UInt16
  extendedDnsError : Option ExtendedDnsError

structure AnswerOptions where
  transport : Transport
  maxUdpPayload : UInt16
  tcpKeepaliveTimeoutSecs : UInt64
  ednsPaddingBlockSize : UInt16
  extendedDnsErrors : ExtendedDnsErrorsMode
  nsid : List UInt8
  dnsCookie : Option DnsCookieContext

namespace RequestMetadata

def withoutExtendedDnsError : RequestMetadata :=
  { metadata with extendedDnsError := none }

def udpCeiling : ℕ :=
  min (metadata.edns.elim 512 fun edns => edns.payloadSize.toNat) options.maxUdpPayload.toNat

end RequestMetadata

structure EdnsResponseBaseShape where
  tcpKeepaliveResponse : Bool
  nsidLen : ℕ
  cookieResponse : Bool
  extendedDnsError : Option ExtendedDnsError
  rdataLen : ℕ

variable (edns : EdnsMetadata)

def ednsResponseBaseShape (options : AnswerOptions)
    (extendedDnsError : Option ExtendedDnsError) : EdnsResponseBaseShape :=
  let tcpKeepaliveResponse := decide (options.transport ≠ .udp) && edns.tcpKeepaliveRequested
  let nsidLen := if edns.nsidRequested && !options.nsid.isEmpty then options.nsid.length else 0
  let cookieResponse := edns.cookie.isSome && options.dnsCookie.isSome
  let extendedDnsError :=
    if options.extendedDnsErrors = .minimal then extendedDnsError else none
  { tcpKeepaliveResponse
    nsidLen
    cookieResponse
    extendedDnsError
    rdataLen :=
      (if tcpKeepaliveResponse then 6 else 0) + (if 0 < nsidLen then 4 + nsidLen else 0) +
        (if cookieResponse then 4 + 8 + 16 else 0) + (if extendedDnsError.isSome then 6 else 0) }

structure EdnsResponseOptionsShape extends EdnsResponseBaseShape where
  paddingLen : Option ℕ

/-- Only an encrypted response is padded, to a multiple of the block size. -/
def ednsResponseOptionsShapeFromBase (options : AnswerOptions) (base : EdnsResponseBaseShape)
    (responseLenBeforeOpt udpCeiling : ℕ) : EdnsResponseOptionsShape :=
  if options.transport = .tls ∧ edns.paddingRequested = true ∧
      0 < options.ednsPaddingBlockSize.toNat then
    let blockSize := options.ednsPaddingBlockSize.toNat
    let totalBeforePaddingData := responseLenBeforeOpt + 11 + base.rdataLen + 4
    let paddingLen := (blockSize - totalBeforePaddingData % blockSize) % blockSize
    if options.transport = .udp ∧ udpCeiling < totalBeforePaddingData + paddingLen then
      { base with paddingLen := none }
    else
      { base with paddingLen := some paddingLen, rdataLen := base.rdataLen + 4 + paddingLen }
  else
    { base with paddingLen := none }

def computeDnsServerCookie : List UInt8 :=
  let cookiePrefix := [1, 0, 0, 0] ++ be32 context.nowUnixSecs
  cookiePrefix ++ context.keyedHash client cookiePrefix

def tcpKeepaliveOption : List UInt8 :=
  [0, 11, 0, 2] ++
    be16 (UInt16.ofNat (min (min (options.tcpKeepaliveTimeoutSecs.toNat * 10) (2 ^ 64 - 1)) 65535))

def nsidOption : List UInt8 :=
  be16 3 ++ be16 (UInt16.ofNat nsidLen) ++ options.nsid

def cookieOption (cookie : EdnsCookie) (context : DnsCookieContext) : List UInt8 :=
  [0, 10, 0, 24] ++ cookie.client ++ computeDnsServerCookie cookie.client context

def extendedDnsErrorOption (error : ExtendedDnsError) : List UInt8 :=
  [0, 15, 0, 2] ++ be16 error.infoCode

def paddingOption (paddingLen : ℕ) : List UInt8 :=
  be16 12 ++ be16 (UInt16.ofNat paddingLen) ++ List.replicate paddingLen 0

/-- The bytes `append_edns_response_options` adds. -/
def ednsResponseOptions (options : AnswerOptions) (shape : EdnsResponseOptionsShape) : List UInt8 :=
  (if shape.tcpKeepaliveResponse then tcpKeepaliveOption options else []) ++
    (if 0 < shape.nsidLen then nsidOption shape.nsidLen options else []) ++
    (if shape.cookieResponse then
      match edns.cookie, options.dnsCookie with
      | some cookie, some context => cookieOption cookie context
      | _, _ => []
    else []) ++
    shape.extendedDnsError.elim [] extendedDnsErrorOption ++
    shape.paddingLen.elim [] paddingOption

def encodeOptRecordWithBaseShape (extendedRcode : UInt16) (options : AnswerOptions)
    (udpCeiling : ℕ) (base : EdnsResponseBaseShape) (response : List UInt8) : List UInt8 :=
  let shape := ednsResponseOptionsShapeFromBase edns options base response.length udpCeiling
  let extRcode := (extendedRcode >>> 4).toUInt32 <<< 24
  let ttl := extRcode ||| ((if edns.doBit then (1 : UInt32) else 0) <<< 15)
  response ++ [0, 0, 41] ++ be16 options.maxUdpPayload ++ be32 ttl ++
    be16 (UInt16.ofNat shape.rdataLen) ++ ednsResponseOptions edns options shape

theorem length_paddingOption (paddingLen : ℕ) :
    (paddingOption paddingLen).length = 4 + paddingLen := by
  simp only [paddingOption, length_append, length_be16, length_replicate]

private theorem length_nsid_part {options : AnswerOptions}
    {extendedDnsError : Option ExtendedDnsError} {base : EdnsResponseBaseShape}
    (hbase : base = ednsResponseBaseShape edns options extendedDnsError) :
    (if 0 < base.nsidLen then nsidOption base.nsidLen options else []).length =
      if 0 < base.nsidLen then 4 + base.nsidLen else 0 := by
  rw [hbase]
  unfold ednsResponseBaseShape
  by_cases h : (edns.nsidRequested && !options.nsid.isEmpty) = true
  · simp only [h, if_true]
    split <;> simp [nsidOption, ← Nat.add_assoc]
  · simp [h]

private theorem length_cookie_part (options : AnswerOptions) :
    (if edns.cookie.isSome && options.dnsCookie.isSome then
      match edns.cookie, options.dnsCookie with
      | some cookie, some context => cookieOption cookie context
      | _, _ => []
    else []).length = if edns.cookie.isSome && options.dnsCookie.isSome then 4 + 8 + 16 else 0 := by
  cases edns.cookie with
  | none => simp
  | some cookie =>
    cases options.dnsCookie with
    | none => simp
    | some context =>
      simp [cookieOption, cookie.client_length, computeDnsServerCookie, context.keyedHash_length]

/-- The options have the length their shape announces. -/
theorem length_ednsResponseOptions (options : AnswerOptions)
    (extendedDnsError : Option ExtendedDnsError) (responseLen udpCeiling : ℕ) :
    (ednsResponseOptions edns options (ednsResponseOptionsShapeFromBase edns options
      (ednsResponseBaseShape edns options extendedDnsError) responseLen udpCeiling)).length =
      (ednsResponseOptionsShapeFromBase edns options
        (ednsResponseBaseShape edns options extendedDnsError) responseLen udpCeiling).rdataLen := by
  set base := ednsResponseBaseShape edns options extendedDnsError with hshape
  have hnsid := length_nsid_part edns hshape
  have hcookie := length_cookie_part edns options
  have herror : (base.extendedDnsError.elim [] extendedDnsErrorOption).length =
      if base.extendedDnsError.isSome then 6 else 0 := by
    cases base.extendedDnsError <;> rfl
  have hkeepalive : (if base.tcpKeepaliveResponse then tcpKeepaliveOption options else []).length =
      if base.tcpKeepaliveResponse then 6 else 0 := by
    split <;> rfl
  have hbase : (ednsResponseOptions edns options { base with paddingLen := none }).length =
      base.rdataLen := by
    simp only [ednsResponseOptions, length_append, hkeepalive, hnsid, herror, Option.elim_none,
      length_nil, Nat.add_zero]
    have hsame : base.cookieResponse = (edns.cookie.isSome && options.dnsCookie.isSome) := rfl
    rw [hsame, hcookie]
    rfl
  unfold ednsResponseOptionsShapeFromBase
  split
  · simp only
    split
    · exact hbase
    · simp only [ednsResponseOptions, length_append] at hbase ⊢
      simp only [Option.elim_none, length_nil, Nat.add_zero] at hbase
      rw [hbase, Option.elim_some, length_paddingOption, ← Nat.add_assoc]
  · exact hbase

end BoronDns
