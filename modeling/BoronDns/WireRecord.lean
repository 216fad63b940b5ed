import BoronDns.CompressorSoundness
import BoronDns.Records

/-!
The records of a response on the wire. A record comes with its owner in wire
form, its fixed fields and its data, together with a note of which parts of
the data are names the writer may compress. The writer leaves room for the
data length and fills it in once the data is written.
-/

namespace BoronDns

open Bytes RecordType

variable (encoding : PackedRdataEncoding)

structure ZoneImageRecordFixedFields where
  rrType : UInt16
  cls : UInt16
  ttl : UInt32
  deriving DecidableEq

variable (fields : ZoneImageRecordFixedFields)

def ZoneImageRecordFixedFields.bytes : List UInt8 :=
  be16 fields.rrType ++ be16 fields.cls ++ be32 fields.ttl

@[simp] theorem ZoneImageRecordFixedFields.length_bytes :
    fields.bytes.length = 8 := rfl

/-- Which part of the data is a name: none, all of it, the part behind the MX
preference, or the two names of an SOA with the given lengths. -/
structure PackedRdataEncoding where
  packed : UInt16
  deriving DecidableEq

namespace PackedRdataEncoding

def copy : PackedRdataEncoding := ⟨0⟩

def singleName : PackedRdataEncoding := ⟨1⟩

def mx : PackedRdataEncoding := ⟨2⟩

variable (mnameLen rnameLen : UInt8)

def soa : PackedRdataEncoding :=
  ⟨(mnameLen.toUInt16 <<< 8) ||| rnameLen.toUInt16⟩

def isCopy : Bool := encoding.packed == 0

def isSingleName : Bool := encoding.packed == 1

def isMx : Bool := encoding.packed == 2

def soaLengths : Option (UInt8 × UInt8) :=
  if 2 < encoding.packed then
    some ((encoding.packed >>> 8).toUInt8, encoding.packed.toUInt8)
  else
    none

private theorem soa_packed_toNat :
    (soa mnameLen rnameLen).packed.toNat = mnameLen.toNat * 256 + rnameLen.toNat := by
  have hlow : rnameLen.toNat < 2 ^ 8 := rnameLen.toNat_lt
  have hhigh := mnameLen.toNat_lt
  have hor := Nat.shiftLeft_add_eq_or_of_lt hlow mnameLen.toNat
  rw [Nat.shiftLeft_eq] at hor
  have hmod : mnameLen.toNat <<< 8 % 2 ^ 16 = mnameLen.toNat * 256 := by
    omega
  simp only [soa, UInt16.toNat_or, UInt16.toNat_shiftLeft, UInt8.toNat_toUInt16,
    UInt16.reduceToNat, Nat.reduceMod, hmod]
  exact hor.symm

/-- The two lengths of an SOA are read back as they were packed. -/
theorem soaLengths_soa {mnameLen rnameLen : UInt8} (h : mnameLen ≠ 0) :
    (soa mnameLen rnameLen).soaLengths = some (mnameLen, rnameLen) := by
  have hvalue := soa_packed_toNat mnameLen rnameLen
  have hm : mnameLen.toNat ≠ 0 := fun h0 => h (UInt8.toNat_inj.mp h0)
  have hr := rnameLen.toNat_lt
  have hbig : 2 < (soa mnameLen rnameLen).packed := by
    simp only [UInt16.lt_iff_toNat_lt, hvalue, UInt16.reduceToNat]
    omega
  rw [soaLengths, if_pos hbig]
  congr 2
  · apply UInt8.toNat_inj.mp
    rw [UInt16.toNat_toUInt8, UInt16.toNat_shiftRight, hvalue, Nat.shiftRight_eq_div_pow]
    simp only [UInt16.reduceToNat, Nat.reduceMod]
    have := mnameLen.toNat_lt
    omega
  · apply UInt8.toNat_inj.mp
    rw [UInt16.toNat_toUInt8, hvalue]
    omega

end PackedRdataEncoding

def zoneImageRdataEncoding (rrType : UInt16) (rdata : Rdata) : PackedRdataEncoding :=
  if rrType = ns ∨ rrType = cname ∨ rrType = ptr then
    if wireNameLenAt rdata 0 = some rdata.length then
      .singleName
    else
      .copy
  else if rrType = soa then
    match wireNameLenAt rdata 0 with
    | none => .copy
    | some mnameLen =>
      match wireNameLenAt rdata mnameLen with
      | none => .copy
      | some rnameLen =>
        if mnameLen + rnameLen + 20 = rdata.length ∧ mnameLen ≤ 255 ∧ rnameLen ≤ 255 then
          .soa (UInt8.ofNat mnameLen) (UInt8.ofNat rnameLen)
        else
          .copy
  else if rrType = mx then
    if 3 ≤ rdata.length ∧ wireNameLenAt rdata 2 = some (rdata.length - 2) then
      .mx
    else
      .copy
  else
    .copy

structure ZoneImageWireRecord where
  ownerWire : List UInt8
  fixedFields : ZoneImageRecordFixedFields
  rdlength : UInt16
  rdataEncoding : PackedRdataEncoding
  rdata : Rdata
  deriving DecidableEq

def encodeZoneImageWireRecordRdata (rdata : Rdata) (response : List UInt8)
    (compressor : WireNameCompressor) : List UInt8 × WireNameCompressor :=
  if encoding.isCopy then
    (response ++ rdata, compressor)
  else if encoding.isSingleName then
    let (compressor, response) := compressor.writeWireName rdata response
    (response, compressor)
  else
    match encoding.soaLengths with
    | some (mnameLen, rnameLen) =>
      let mname := rdata.take mnameLen.toNat
      let rname := (rdata.drop mnameLen.toNat).take rnameLen.toNat
      let (compressor, response) := compressor.writeWireName mname response
      let (compressor, response) := compressor.writeWireName rname response
      (response ++ rdata.drop (mnameLen.toNat + rnameLen.toNat), compressor)
    | none =>
      if encoding.isMx then
        let (compressor, response) :=
          compressor.writeWireName (rdata.drop 2) (response ++ rdata.take 2)
        (response, compressor)
      else
        (response, compressor)

/-- `response[offset..offset + 2].copy_from_slice(&value.to_be_bytes())`. -/
def putBe16 (response : List UInt8) (offset : ℕ) (value : UInt16) : List UInt8 :=
  response.take offset ++ be16 value ++ response.drop (offset + 2)

def encodeZoneImageWireRecord (record : ZoneImageWireRecord) (response : List UInt8)
    (compressor : WireNameCompressor) : List UInt8 × WireNameCompressor :=
  let (compressor, response) := compressor.writeWireName record.ownerWire response
  let response := response ++ record.fixedFields.bytes
  if record.rdataEncoding.isCopy then
    (response ++ be16 record.rdlength ++ record.rdata, compressor)
  else
    let rdlengthOffset := response.length
    let response := response ++ be16 0
    let rdataOffset := response.length
    let (response, compressor) :=
      encodeZoneImageWireRecordRdata record.rdataEncoding record.rdata response compressor
    (putBe16 response rdlengthOffset (UInt16.ofNat (response.length - rdataOffset)), compressor)

/-- The loop over the records of one or more sections. -/
def encodeZoneImageWireRecords (records : List ZoneImageWireRecord) (response : List UInt8)
    (compressor : WireNameCompressor) : List UInt8 × WireNameCompressor :=
  records.foldl (fun state record => encodeZoneImageWireRecord record state.1 state.2)
    (response, compressor)

end BoronDns
