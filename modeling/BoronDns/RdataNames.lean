import BoronDns.NameCompression
import BoronDns.Records

/-!
What the server reads out of record data: uncompressed names, the target of an
alias or of a type with additional processing, the type an RRSIG covers and the
minimum of an SOA. A run of octets is read as a name exactly when it is the wire
form of a name of at most 255 octets.
-/

namespace BoronDns

open Bytes List DomainName RecordType

/-- The labels of the name at the front of `wire` and the octets it takes, with
`totalLen` octets of the name already read. -/
def canonicalWireLabelsLoop : ℕ → List UInt8 → ℕ → Option (List Label × ℕ)
  | 0, _, _ => none
  | _ + 1, [], _ => none
  | fuel + 1, len :: rest, totalLen =>
    if len &&& 0xc0 ≠ 0 then
      none
    else if len = 0 then
      some ([], 1)
    else if 255 < totalLen + 1 + len.toNat then
      none
    else if rest.length < len.toNat then
      none
    else
      match canonicalWireLabelsLoop fuel (rest.drop len.toNat) (totalLen + 1 + len.toNat) with
      | none => none
      | some (labels, consumed) => some (rest.take len.toNat :: labels, 1 + len.toNat + consumed)

/-- Every turn reads an octet, so the loop ends within the length of the wire. -/
def canonicalWireLabelRanges (wire : List UInt8) : Option (List Label × ℕ) :=
  canonicalWireLabelsLoop wire.length wire 1

variable {labels : List Label}

theorem canonicalWireLabelsLoop_sound {fuel : ℕ} {wire : List UInt8} {totalLen consumed : ℕ}
    (h : canonicalWireLabelsLoop fuel wire totalLen = some (labels, consumed)) :
    ValidLabels labels ∧ labelsWire labels ++ [0] <+: wire ∧ consumed =
      (labelsWire labels).length + 1 ∧
      (labels ≠ [] → totalLen + (labelsWire labels).length ≤ 255) := by
  induction fuel generalizing wire totalLen consumed labels with
  | zero => simp [canonicalWireLabelsLoop] at h
  | succ fuel ih =>
    cases wire with
    | nil => simp [canonicalWireLabelsLoop] at h
    | cons len rest =>
      simp only [canonicalWireLabelsLoop] at h
      split at h
      · simp at h
      rename_i hplain
      split at h
      next hzero =>
        obtain ⟨rfl, rfl⟩ : labels = [] ∧ consumed = 1 := by simpa [eq_comm] using h
        exact ⟨by simp [ValidLabels], by simp [hzero], rfl, by simp⟩
      rename_i hzero
      split at h
      · simp at h
      split at h
      · simp at h
      split at h
      · simp at h
      rename_i tail used htail
      obtain ⟨rfl, rfl⟩ : labels = rest.take len.toNat :: tail ∧
          consumed = 1 + len.toNat + used := by simpa [eq_comm] using h
      obtain ⟨hvalid, hat, rfl, hbound⟩ := ih htail
      have hshort : len.toNat < 64 := (and_c0_eq_zero_iff len).mp (not_not.mp hplain)
      have hne : len.toNat ≠ 0 := fun h0 => hzero (UInt8.toNat_inj.mp h0)
      have htake : (rest.take len.toNat).length = len.toNat := by
        rw [length_take]
        omega
      refine ⟨?_, ?_, ?_, ?_⟩
      · intro label hlabel
        rcases mem_cons.mp hlabel with rfl | hlabel
        · omega
        · exact hvalid label hlabel
      · rw [labelsWire_cons, labelWire, htake, UInt8.ofNat_toNat]
        simp only [cons_append, append_assoc]
        rw [cons_prefix_cons]
        refine ⟨rfl, ?_⟩
        obtain ⟨more, hmore⟩ := hat
        exact ⟨more, by rw [append_assoc, hmore, take_append_drop]⟩
      · simp only [labelsWire_cons, length_append, length_labelWire, htake]
        omega
      · intro _
        simp only [labelsWire_cons, length_append, length_labelWire, htake]
        by_cases hnil : tail = []
        · subst hnil
          simp only [labelsWire_nil, length_nil]
          omega
        · have := hbound hnil
          omega

theorem canonicalWireLabelsLoop_complete (hvalid : ValidLabels labels) (fuel totalLen : ℕ)
    (more : List UInt8) (hfuel : (labelsWire labels).length < fuel)
    (hfits : totalLen + (labelsWire labels).length ≤ 255) :
    canonicalWireLabelsLoop fuel (labelsWire labels ++ 0 :: more) totalLen =
      some (labels, (labelsWire labels).length + 1) := by
  induction labels generalizing fuel totalLen with
  | nil =>
    obtain ⟨fuel, rfl⟩ : ∃ n, fuel = n + 1 := ⟨fuel - 1, by simp at hfuel; omega⟩
    simp [canonicalWireLabelsLoop]
  | cons label rest ih =>
    obtain ⟨hlabel, hrest⟩ := hvalid.cons
    simp only [labelsWire_cons, length_append, length_labelWire] at hfuel hfits
    obtain ⟨fuel, rfl⟩ : ∃ n, fuel = n + 1 := ⟨fuel - 1, by omega⟩
    have hlen : (UInt8.ofNat label.length).toNat = label.length := toNat_ofNat_length hlabel.2
    have hmask : UInt8.ofNat label.length &&& 0xc0 = 0 := and_c0_ofNat_length hlabel.2
    have hzero : UInt8.ofNat label.length ≠ 0 := ofNat_length_ne_zero hlabel
    simp only [labelsWire_cons, labelWire, cons_append, append_assoc, canonicalWireLabelsLoop,
      hmask, hlen]
    rw [if_neg (by simp), if_neg hzero, if_neg (by omega), if_neg (by simp), take_left,
      drop_left, ih hrest _ _ (by omega) (by omega)]
    simp only [length_cons, length_append, Option.some.injEq, Prod.mk.injEq, true_and]
    omega

namespace DomainName

/-- `from_uncompressed_wire`: the whole of the wire is one name. -/
def fromUncompressedWire (wire : List UInt8) : Option DomainName :=
  match canonicalWireLabelRanges wire with
  | none => none
  | some (labels, consumed) =>
    if h : consumed = wire.length ∧ ∀ label ∈ labels, 0 < label.length ∧ label.length ≤ 63 then
      some ⟨labels, h.2⟩
    else
      none

theorem fromUncompressedWire_iff {wire : List UInt8} {name : DomainName} :
    fromUncompressedWire wire = some name ↔ wire = name.toWire ∧ name.wireLen ≤ 255 := by
  unfold fromUncompressedWire canonicalWireLabelRanges
  constructor
  · intro h
    split at h
    · simp at h
    rename_i labels consumed hloop
    split at h
    next hwhole =>
      obtain rfl := Option.some.inj h
      obtain ⟨hvalid, hat, hconsumed, hbound⟩ := canonicalWireLabelsLoop_sound hloop
      have hlen := length_labelsWire_add_one ⟨labels, hwhole.2⟩
      refine ⟨(hat.eq_of_length (by simp; omega)).symm, ?_⟩
      rw [← hlen]
      by_cases hnil : labels = []
      · simp [hnil]
      · have := hbound hnil
        simp only
        omega
    · simp at h
  · rintro ⟨rfl, hfits⟩
    have hlen := name.length_labelsWire_add_one
    have hloop := canonicalWireLabelsLoop_complete name.labels_valid name.toWire.length 1 []
      (by simp [toWire]) (by omega)
    rw [toWire] at hloop ⊢
    rw [hloop]
    simp only [length_append, length_singleton]
    rw [dif_pos ⟨trivial, name.labels_valid⟩]

end DomainName

theorem DomainName.fromUncompressedWire_toWire {name : DomainName} (h : name.wireLen ≤ 255) :
    DomainName.fromUncompressedWire name.toWire = some name :=
  fromUncompressedWire_iff.mpr ⟨rfl, h⟩

theorem DomainName.toWire_inj {left right : DomainName} (hleft : left.wireLen ≤ 255)
    (h : left.toWire = right.toWire) : left = right := by
  have hlen : right.wireLen ≤ 255 := by
    rw [← right.length_toWire, ← h, left.length_toWire]
    exact hleft
  have hread := fromUncompressedWire_toWire hleft
  rw [h, fromUncompressedWire_toWire hlen] at hread
  exact (Option.some.inj hread).symm

variable (rdata : Rdata)

def singleNameRdataBytes : Option DomainName :=
  DomainName.fromUncompressedWire rdata

def wireNameSliceAt (offset : ℕ) (requireEnd : Bool) : Option (List UInt8) :=
  match wireNameLenAt rdata offset with
  | none => none
  | some len =>
    if rdata.length < offset + len ∨ (requireEnd = true ∧ offset + len ≠ rdata.length) then
      none
    else
      some ((rdata.drop offset).take len)

def singleNameRdataWire : Option (List UInt8) := wireNameSliceAt rdata 0 true

def mxExchangeWireRdata : Option (List UInt8) :=
  if rdata.length < 3 then none else wireNameSliceAt rdata 2 true

def srvTargetWireRdata : Option (List UInt8) :=
  if rdata.length < 7 then none else wireNameSliceAt rdata 6 true

def skipCharacterString (offset : ℕ) : Option ℕ :=
  match rdata[offset]? with
  | none => none
  | some len =>
    if offset + 1 + len.toNat ≤ rdata.length then some (offset + 1 + len.toNat) else none

def naptrReplacementWireRdata : Option (List UInt8) :=
  if rdata.length < 7 then
    none
  else do
    let offset ← skipCharacterString rdata 4
    let offset ← skipCharacterString rdata offset
    let offset ← skipCharacterString rdata offset
    wireNameSliceAt rdata offset true

def svcbTargetNameWireRdata : Option (List UInt8) :=
  if rdata.length < 3 then none else wireNameSliceAt rdata 2 false

variable (rrType : UInt16)

def additionalAddressTargetWireRdata (rdata : Rdata) : Option (List UInt8) :=
  if rrType = ns then
    singleNameRdataWire rdata
  else if rrType = mx then
    mxExchangeWireRdata rdata
  else if rrType = srv then
    srvTargetWireRdata rdata
  else if rrType = naptr then
    naptrReplacementWireRdata rdata
  else if rrType = svcb ∨ rrType = https then
    svcbTargetNameWireRdata rdata
  else
    none

def rrTypeMayHaveAdditionalAddressTarget : Bool :=
  rrType == ns || rrType == mx || rrType == srv ||
    rrType == naptr || rrType == svcb || rrType == https

def isDnssecProofOrSignatureType : Bool :=
  rrType == rrsig || rrType == nsec || rrType == nsec3

/-- The number in the first two octets. -/
def rdataU16 : Option UInt16 :=
  match rdata with
  | high :: low :: _ => some (fromBe16 high low)
  | _ => none

def rrsigTypeCoveredRdata : Option UInt16 := rdataU16 rdata

def soaMinimum : Option UInt32 :=
  match wireNameLenAt rdata 0 with
  | none => none
  | some rnameOffset =>
    match wireNameLenAt rdata rnameOffset with
    | none => none
    | some consumedRname =>
      let serialOffset := rnameOffset + consumedRname
      if serialOffset + 20 ≠ rdata.length then
        none
      else
        some (fromBe32 (rdata.getD (serialOffset + 16) 0) (rdata.getD (serialOffset + 17) 0)
          (rdata.getD (serialOffset + 18) 0) (rdata.getD (serialOffset + 19) 0))

/-- Where the data of a type holds a name that the writer may compress. The two
names of an SOA are bounded when the image is built. -/
def compressibleNameOffset (rrType : UInt16) : Option ℕ :=
  if rrType = ns ∨ rrType = cname ∨ rrType = ptr then
    some 0
  else if rrType = mx then
    some 2
  else
    none

/-- What a transfer promises of an RRset (`Validated.fromTransfer`): the owner and the names in
its data were read by the name parser, so they have at most 255 octets. -/
structure Rrset.FromTransfer (rrset : Rrset) : Prop where
  owner_fits : rrset.owner.wireLen ≤ 255
  names_fit : ∀ rdata ∈ rrset.rdatas, ∀ offset len,
    compressibleNameOffset rrset.rrType = some offset → wireNameLenAt rdata offset = some len →
      len ≤ 255

end BoronDns
