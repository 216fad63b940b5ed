import BoronDns.RdataNames
import BoronDns.WireRecord

/-!
Reading the records of a response back. `RecordAt` says that parsing a message
at a position gives a record: the parser finds its owner there, up to case,
then the fixed fields, a data length, and data of that length in which every
compressible name parses to the name that was given. Encoding a list of well
formed records produces a message that reads back as that list.
-/

namespace BoronDns

open Bytes List

variable {packet : List UInt8} {pos next : ℕ} {compressor : WireNameCompressor}
  {encoding : PackedRdataEncoding} {record : ZoneImageWireRecord}

/-- The parser reads the name with wire form `wire` at `pos`, over `len` bytes
that end in the zero octet or in a pointer to an earlier offset. -/
structure NameReads (packet : List UInt8) (pos : ℕ) (wire : List UInt8) (len : ℕ) : Prop where
  parsed : ∃ name parsed : DomainName, wire = name.toWire ∧
    DomainName.parse packet pos = .ok (parsed, len) ∧ parsed.lowerLabels = name.lowerLabels
  closed : ∃ (kept : List Label) (ending : List UInt8),
    At packet pos (labelsWire kept ++ ending) ∧ len = (labelsWire kept ++ ending).length ∧
      (ending = [0] ∨ ∃ offset : UInt16, offset.toNat ≤ 0x3fff ∧ offset.toNat < pos ∧
      ending = pointerBytes offset)

/-- A name of at most 255 octets, in wire form. -/
def FittingName (wire : List UInt8) : Prop :=
  ∃ name : DomainName, name.wireLen ≤ 255 ∧ wire = name.toWire

theorem length_le_of_length_labelsWire {labels : List Label} (h : ValidLabels labels) :
    2 * labels.length ≤ (labelsWire labels).length := by
  induction labels with
  | nil => simp
  | cons label rest ih =>
    obtain ⟨hlabel, hrest⟩ := h.cons
    have := ih hrest
    simp only [length_cons, labelsWire_cons, length_append, length_labelWire]
    omega

variable {len : ℕ}

/-- A written name that fits in 255 octets is read back by the parser. -/
theorem WrittenName.nameReads {name : DomainName} (h : WrittenName packet pos name.labels len)
    (hfit : name.wireLen ≤ 255) : NameReads packet pos name.toWire len := by
  obtain ⟨read, pointers, hlower, hfew, hname⟩ := h.reads
  have hsize : (labelsWire name.labels).length + 1 ≤ 255 := by
    rw [name.length_labelsWire_add_one]
    exact hfit
  have hcount := length_le_of_length_labelsWire name.labels_valid
  obtain ⟨parsed, hparsed, hparse⟩ := DomainName.parse_of_wireNameAt hname (by omega)
    (by rw [← length_labelsWire_map_lowerLabel, hlower,
    length_labelsWire_map_lowerLabel]; exact hsize)
  refine ⟨⟨name, parsed, rfl, ?_, ?_⟩, h.closed⟩
  · rw [hparse, Nat.add_sub_cancel_left]
  · simp [DomainName.lowerLabels, hparsed, hlower]

/-- The data of a record as it stands in a message over `len` bytes. -/
def RdataAt (packet : List UInt8) (pos : ℕ) (encoding : PackedRdataEncoding) (rdata : Rdata)
    (len : ℕ) : Prop :=
  if encoding.isCopy then
    At packet pos rdata ∧ len = rdata.length
  else if encoding.isSingleName then
    NameReads packet pos rdata len
  else
    match encoding.soaLengths with
    | some (mnameLen, rnameLen) =>
      ∃ mname rname : ℕ, NameReads packet pos (rdata.take mnameLen.toNat) mname ∧
        NameReads packet (pos + mname) ((rdata.drop mnameLen.toNat).take rnameLen.toNat) rname ∧
        At packet (pos + mname + rname) (rdata.drop (mnameLen.toNat + rnameLen.toNat)) ∧
        len = mname + rname + (rdata.drop (mnameLen.toNat + rnameLen.toNat)).length
    | none =>
      ∃ exchange : ℕ, At packet pos (rdata.take 2) ∧
        NameReads packet (pos + 2) (rdata.drop 2) exchange ∧ len = 2 + exchange

/-- The message holds `record` at `pos`, and the next record starts at `next`. -/
def RecordAt (packet : List UInt8) (pos : ℕ) (record : ZoneImageWireRecord) (next : ℕ) : Prop :=
  ∃ ownerLen rdataLen : ℕ, rdataLen ≤ 65535 ∧ NameReads packet pos record.ownerWire ownerLen ∧
    At packet (pos + ownerLen) (record.fixedFields.bytes ++ be16 (UInt16.ofNat rdataLen)) ∧
    RdataAt packet (pos + ownerLen + 10) record.rdataEncoding record.rdata rdataLen ∧
    next = pos + ownerLen + 10 + rdataLen ∧ next ≤ packet.length

/-- The message holds the records one after the other. -/
def RecordsAt (packet : List UInt8) (pos : ℕ) : List ZoneImageWireRecord → ℕ → Prop
  | [], next => next = pos
  | record :: rest, next => ∃ middle, RecordAt packet pos record middle ∧
      RecordsAt packet middle rest next

/-- The names in the data are names, of at most 255 octets. -/
def RdataFits (encoding : PackedRdataEncoding) (rdata : Rdata) : Prop :=
  if encoding.isCopy then
    True
  else if encoding.isSingleName then
    FittingName rdata
  else
    match encoding.soaLengths with
    | some (mnameLen, rnameLen) =>
      FittingName (rdata.take mnameLen.toNat) ∧
        FittingName ((rdata.drop mnameLen.toNat).take rnameLen.toNat)
    | none => encoding.isMx = true ∧ 2 ≤ rdata.length ∧ FittingName (rdata.drop 2)

/-- What the image guarantees of a record it hands out. -/
structure ZoneImageWireRecord.WellFormed (record : ZoneImageWireRecord) : Prop where
  owner_fits : FittingName record.ownerWire
  rdlength_eq : record.rdlength.toNat = record.rdata.length
  rdata_fits : RdataFits record.rdataEncoding record.rdata

variable {wire : List UInt8}

theorem NameReads.append (h : NameReads packet pos wire len)
    (more : List UInt8) : NameReads (packet ++ more) pos wire len := by
  obtain ⟨name, parsed, hwire, hparse, hlower⟩ := h.parsed
  obtain ⟨kept, ending, hat, hlen, hending⟩ := h.closed
  have hne : labelsWire kept ++ ending ≠ [] := by
    rcases hending with rfl | ⟨offset, -, -, rfl⟩
    · simp
    · simp [pointerBytes, be16]
  have hbound := hat.bound hne
  exact ⟨⟨name, parsed, hwire, DomainName.parse_append hparse more, hlower⟩,
    ⟨kept, ending, hat.append (by omega) more, hlen, hending⟩⟩

theorem RdataAt.append {rdata : Rdata} (h : RdataAt packet pos encoding rdata len)
    (hpos : pos + len ≤ packet.length) (more : List UInt8) :
    RdataAt (packet ++ more) pos encoding rdata len := by
  unfold RdataAt at h ⊢
  split
  next hcopy =>
    rw [if_pos hcopy] at h
    exact ⟨h.1.append (by omega) more, h.2⟩
  rename_i hcopy
  rw [if_neg hcopy] at h
  split
  next hsingle =>
    rw [if_pos hsingle] at h
    exact NameReads.append h more
  rename_i hsingle
  rw [if_neg hsingle] at h
  split
  next mnameLen rnameLen hsoa =>
    rw [hsoa] at h
    obtain ⟨mname, rname, hm, hr, htimers, hlen⟩ := h
    exact ⟨mname, rname, hm.append more, hr.append more, htimers.append (by omega) more, hlen⟩
  next hsoa =>
    rw [hsoa] at h
    obtain ⟨exchange, hpreference, hname, hlen⟩ := h
    exact ⟨exchange, hpreference.append (by omega) more, hname.append more, hlen⟩

theorem RecordAt.append (h : RecordAt packet pos record next) (more : List UInt8) :
    RecordAt (packet ++ more) pos record next := by
  obtain ⟨ownerLen, rdataLen, hsmall, hown, hfixed, hrdata, rfl, hbound⟩ := h
  refine ⟨ownerLen, rdataLen, hsmall, hown.append more, hfixed.append (by omega) more,
    hrdata.append hbound more, rfl, ?_⟩
  rw [length_append]
  omega

variable {records : List ZoneImageWireRecord}

theorem RecordsAt.append (h : RecordsAt packet pos records next)
    (more : List UInt8) : RecordsAt (packet ++ more) pos records next := by
  induction records generalizing pos with
  | nil => exact h
  | cons record rest ih =>
    obtain ⟨middle, hrec, hrest⟩ := h
    exact ⟨middle, hrec.append more, ih hrest⟩

/-- Writing a fitting name, in the terms of the reader. -/
theorem WireNameCompressor.Sound.writeFittingName (hsound : compressor.Sound packet)
    (hfits : FittingName wire) :
    (compressor.afterName wire packet.length).Sound (packet ++ compressor.nameChunk wire) ∧
      NameReads (packet ++ compressor.nameChunk wire) packet.length wire
        (compressor.nameChunk wire).length ∧
      (compressor.nameChunk wire).length ≤ wire.length := by
  obtain ⟨name, hfit, rfl⟩ := hfits
  obtain ⟨hnext, hwritten, hlen⟩ := hsound.writeWireName name.labels_valid
  exact ⟨hnext, hwritten.nameReads hfit, hlen⟩

/-- Of what is already written, only its length matters to the data writer. -/
theorem encodeRdata_append (encoding : PackedRdataEncoding) (rdata : Rdata)
    (compressor : WireNameCompressor) (start : ℕ) :
    ∃ (chunk : List UInt8) (after : WireNameCompressor), ∀ response : List UInt8,
      response.length = start →
      encodeZoneImageWireRecordRdata encoding rdata response compressor =
        (response ++ chunk, after) := by
  unfold encodeZoneImageWireRecordRdata
  split
  · exact ⟨rdata, compressor, fun _ _ => rfl⟩
  split
  · refine ⟨compressor.nameChunk rdata, compressor.afterName rdata start, ?_⟩
    rintro response rfl
    rw [WireNameCompressor.writeWireName_eq]
  split
  next mnameLen rnameLen _ =>
    let mname := rdata.take mnameLen.toNat
    let rname := (rdata.drop mnameLen.toNat).take rnameLen.toNat
    let middle := compressor.afterName mname start
    refine ⟨compressor.nameChunk mname ++
      (middle.nameChunk rname ++ rdata.drop (mnameLen.toNat + rnameLen.toNat)),
      middle.afterName rname (start + (compressor.nameChunk mname).length), ?_⟩
    rintro response rfl
    simp [WireNameCompressor.writeWireName_eq, mname, rname, middle]
  · split
    · refine ⟨rdata.take 2 ++ compressor.nameChunk (rdata.drop 2),
        compressor.afterName (rdata.drop 2) (start + (rdata.take 2).length), ?_⟩
      rintro response rfl
      simp [WireNameCompressor.writeWireName_eq]
    · exact ⟨[], compressor, fun response _ => by simp⟩

/-- The data of a well-formed record reads back from where it was written. -/
theorem encodeRdata_sound (hsound : compressor.Sound packet) {rdata : Rdata}
    (hfits : RdataFits encoding rdata) {chunk : List UInt8} {after : WireNameCompressor}
    (h : encodeZoneImageWireRecordRdata encoding rdata packet compressor =
      (packet ++ chunk, after)) :
    after.Sound (packet ++ chunk) ∧ RdataAt
      (packet ++ chunk) packet.length encoding rdata chunk.length ∧
      chunk.length ≤ rdata.length := by
  unfold encodeZoneImageWireRecordRdata at h
  unfold RdataFits at hfits
  unfold RdataAt
  split at h
  next hcopy =>
    obtain ⟨hchunk, rfl⟩ := Prod.mk.inj h
    obtain rfl := append_cancel_left hchunk
    rw [if_pos hcopy]
    exact ⟨hsound.append _, ⟨At.at_end _ _, rfl⟩, le_rfl⟩
  rename_i hcopy
  rw [if_neg hcopy] at hfits
  rw [if_neg hcopy]
  split at h
  next hsingle =>
    rw [if_pos hsingle] at hfits
    rw [WireNameCompressor.writeWireName_eq] at h
    obtain ⟨hchunk, rfl⟩ := Prod.mk.inj h
    obtain rfl := append_cancel_left hchunk
    rw [if_pos hsingle]
    exact hsound.writeFittingName hfits
  rename_i hsingle
  rw [if_neg hsingle] at hfits
  rw [if_neg hsingle]
  rcases hsoa : encoding.soaLengths with _ | ⟨mnameLen, rnameLen⟩ <;> rw [hsoa] at h hfits
  case some =>
    obtain ⟨hsound1, hread1, hlen1⟩ := hsound.writeFittingName hfits.1
    obtain ⟨hsound2, hread2, hlen2⟩ := hsound1.writeFittingName hfits.2
    simp only [WireNameCompressor.writeWireName_eq] at h
    obtain ⟨hchunk, rfl⟩ := Prod.mk.inj h
    rw [append_assoc, append_assoc] at hchunk
    obtain rfl := append_cancel_left hchunk
    generalize compressor.nameChunk (rdata.take mnameLen.toNat) = mname at *
    generalize WireNameCompressor.nameChunk _ _ = rname at *
    simp only [← append_assoc]
    refine ⟨hsound2.append _, ⟨mname.length, rname.length, (hread1.append _).append _, ?_, ?_, ?_⟩,
      ?_⟩
    · rw [← length_append]
      exact hread2.append _
    · rw [← length_append, ← length_append]
      exact At.at_end _ _
    · simp [Nat.add_assoc]
    · simp only [length_append, length_take, length_drop] at hlen1 hlen2 ⊢
      omega
  case none =>
    obtain ⟨hmx, hlong, hname⟩ := hfits
    rw [if_pos hmx] at h
    have htake : (rdata.take 2).length = 2 := by
      rw [length_take]
      omega
    obtain ⟨hsound1, hread1, hlen1⟩ := (hsound.append (rdata.take 2)).writeFittingName hname
    simp only [WireNameCompressor.writeWireName_eq] at h
    obtain ⟨hchunk, rfl⟩ := Prod.mk.inj h
    rw [append_assoc] at hchunk
    obtain rfl := append_cancel_left hchunk
    simp only [← append_assoc]
    rw [length_append, htake] at hread1
    refine ⟨hsound1, ⟨_, ?_, hread1, ?_⟩, ?_⟩
    · rw [append_assoc]
      exact At.at_end_append _ _ _
    · rw [length_append, htake]
    · simp only [length_append, htake, length_drop] at hlen1 ⊢
      omega

theorem putBe16_append (response chunk : List UInt8) (value : UInt16) :
    putBe16 (response ++ be16 0 ++ chunk) response.length value = response ++
      be16 value ++ chunk := by
  have hdrop : (response ++ (be16 0 ++ chunk)).drop (response.length + 2) = chunk := by
    rw [← drop_drop, drop_left]
    rfl
  rw [putBe16, append_assoc response, take_left, hdrop]

/-- Behind an owner that reads back stand the fixed fields, a length and the data. -/
theorem NameReads.framed {owner fixed head : List UInt8} {value : UInt16}
    (h : NameReads (packet ++ owner) packet.length wire owner.length) (hfixed : fixed.length = 8)
    (hhead : head = packet ++ owner ++ fixed ++ be16 value) (rdata : List UInt8) :
    NameReads (head ++ rdata) packet.length wire owner.length ∧
      At (head ++ rdata) (packet.length + owner.length) (fixed ++ be16 value) ∧
      head.length = packet.length + owner.length + 10 := by
  subst hhead
  refine ⟨((h.append _).append _).append _, ?_, by simp only [length_append, hfixed, length_be16]⟩
  simpa only [append_assoc, length_append] using
    At.at_end_append (packet ++ owner) (fixed ++ be16 value) rdata

theorem NameReads.recordAt {owner head : List UInt8}
    (h : NameReads (packet ++ owner) packet.length record.ownerWire owner.length)
    (chunk : List UInt8)
    (hhead : head = packet ++ owner ++ record.fixedFields.bytes ++ be16 (UInt16.ofNat chunk.length))
    (hshort : chunk.length ≤ 65535)
    (hrdata : RdataAt (head ++ chunk) head.length record.rdataEncoding record.rdata chunk.length) :
    RecordAt (head ++ chunk) packet.length record (head ++ chunk).length := by
  obtain ⟨hown, hfields, hpos⟩ := h.framed (by rfl) hhead chunk
  rw [hpos] at hrdata
  refine ⟨owner.length, chunk.length, hshort, hown, hfields, hrdata, ?_, le_rfl⟩
  rw [length_append, hpos]

/-- A written record reads back from where it was written. -/
theorem encodeRecord_sound (hsound : compressor.Sound packet) (hrec : record.WellFormed) :
    ∃ chunk : List UInt8, (encodeZoneImageWireRecord record packet compressor).1 = packet ++ chunk ∧
      (encodeZoneImageWireRecord record packet compressor).2.Sound (packet ++ chunk) ∧
      RecordAt (packet ++ chunk) packet.length record (packet ++ chunk).length := by
  obtain ⟨hsound1, hown, -⟩ := hsound.writeFittingName hrec.owner_fits
  have hrdlength := hrec.rdlength_eq
  have hmax := record.rdlength.toNat_lt
  unfold encodeZoneImageWireRecord
  simp only [WireNameCompressor.writeWireName_eq]
  generalize compressor.nameChunk record.ownerWire = owner at *
  generalize compressor.afterName record.ownerWire packet.length = named at *
  split
  next hcopy =>
    have hread := hown.recordAt record.rdata rfl (by omega) (by
      rw [RdataAt, if_pos hcopy]
      exact ⟨At.at_end _ _, rfl⟩)
    rw [← hrdlength, UInt16.ofNat_toNat] at hread
    have hsound2 := ((hsound1.append record.fixedFields.bytes).append
      (be16 record.rdlength)).append record.rdata
    simp only [append_assoc] at hread hsound2 ⊢
    exact ⟨_, rfl, hsound2, hread⟩
  · obtain ⟨chunk, after, hencode⟩ := encodeRdata_append record.rdataEncoding record.rdata named
      (packet ++ owner ++ record.fixedFields.bytes ++ be16 0).length
    -- the same data behind the length that is filled in afterwards
    obtain ⟨hsound2, hrdata, hshort⟩ := encodeRdata_sound
      ((hsound1.append record.fixedFields.bytes).append (be16 (UInt16.ofNat chunk.length)))
      hrec.rdata_fits (hencode _ (by simp))
    have hread := hown.recordAt chunk rfl (by omega) hrdata
    rw [hencode _ rfl]
    dsimp only
    rw [putBe16_append, length_append, Nat.add_sub_cancel_left]
    simp only [append_assoc] at hread hsound2 ⊢
    exact ⟨_, rfl, hsound2, hread⟩

/-- The records of a message read back in the order they were written. -/
theorem encodeRecords_sound (hsound : compressor.Sound packet)
    (hrecs : ∀ record ∈ records, record.WellFormed) :
    ∃ chunk : List UInt8, (encodeZoneImageWireRecords records packet compressor).1 =
      packet ++ chunk ∧
      (encodeZoneImageWireRecords records packet compressor).2.Sound (packet ++ chunk) ∧
      RecordsAt (packet ++ chunk) packet.length records (packet ++ chunk).length := by
  induction records generalizing packet compressor with
  | nil =>
    refine ⟨[], by simp [encodeZoneImageWireRecords], ?_, by simp [RecordsAt]⟩
    rw [append_nil]
    exact hsound
  | cons record rest ih =>
    obtain ⟨chunk, hout, hnext, hrec⟩ :=
      encodeRecord_sound hsound (hrecs record (mem_cons_self ..))
    obtain ⟨more, houtRest, hnextRest, hrest⟩ :=
      ih hnext (fun other hother => hrecs other (mem_cons_of_mem _ hother))
    have hfold : encodeZoneImageWireRecords (record :: rest) packet compressor =
        encodeZoneImageWireRecords rest (packet ++ chunk)
          (encodeZoneImageWireRecord record packet compressor).2 := by
      rw [encodeZoneImageWireRecords, foldl_cons, ← hout]
      rfl
    refine ⟨chunk ++ more, ?_, ?_, ?_⟩
    · rw [hfold, houtRest, append_assoc]
    · rw [hfold, ← append_assoc]
      exact hnextRest
    · rw [← append_assoc]
      exact ⟨(packet ++ chunk).length, hrec.append more, hrest⟩

section Writing

/-- What a message is written from: octets as they are, and names of at most 255 octets. -/
inductive WriterItem
  | octets (chunk : List UInt8)
  | name (name : { name : DomainName // name.wireLen ≤ 255 })

def writeItem (written : WireNameCompressor × List UInt8) :
    WriterItem → WireNameCompressor × List UInt8
  | .octets chunk => (written.1, written.2 ++ chunk)
  | .name name => written.1.writeWireName name.1.toWire written.2

variable {written : WireNameCompressor × List UInt8}

/-- The compressor stays sound, and what is written stays. -/
theorem writeItems_sound (h : written.1.Sound written.2) (items : List WriterItem) :
    written.2 <+: (items.foldl writeItem written).2 ∧
      (items.foldl writeItem written).1.Sound (items.foldl writeItem written).2 := by
  induction items generalizing written with
  | nil => exact ⟨prefix_rfl, h⟩
  | cons item items ih =>
    have hstep : written.2 <+: (writeItem written item).2 ∧
        (writeItem written item).1.Sound (writeItem written item).2 := by
      cases item with
      | octets chunk => exact ⟨prefix_append .., h.append chunk⟩
      | name name =>
        rw [writeItem, WireNameCompressor.writeWireName_eq]
        exact ⟨prefix_append .., (h.writeWireName name.1.labels_valid).1⟩
    exact ⟨hstep.1.trans (ih hstep.2).1, (ih hstep.2).2⟩

/-- Whatever is written before and behind a name, it is read back, up to case, where it was
written, with the pointers that stand for parts of it. -/
theorem writeItems_reads (header : List UInt8) (front back : List WriterItem)
    (name : { name : DomainName // name.wireLen ≤ 255 }) : ∃ (parsed : DomainName) (len : ℕ),
      DomainName.parse ((front ++ .name name :: back).foldl writeItem (.empty, header)).2
        (front.foldl writeItem (.empty, header)).2.length = .ok (parsed, len) ∧
      parsed.lowerLabels = name.1.lowerLabels := by
  have hempty : WireNameCompressor.empty.Sound header :=
    fun entry hentry => absurd hentry not_mem_nil
  have hfront := (@writeItems_sound (.empty, header) hempty front).2
  rw [foldl_append, foldl_cons]
  generalize front.foldl writeItem (.empty, header) = written at hfront
  obtain ⟨held, parsed, hheld, hparse, hlower⟩ :=
    (hfront.writeFittingName ⟨name.1, name.2, rfl⟩).2.1.parsed
  have hwritten : (writeItem written (.name name)).2 = written.2 ++
      written.1.nameChunk name.1.toWire :=
    congrArg Prod.snd (WireNameCompressor.writeWireName_eq ..)
  obtain ⟨more, hmore⟩ := (writeItems_sound (writeItems_sound hfront [.name name]).2 back).1
  rw [← hwritten] at hparse
  exact ⟨parsed, _, hmore ▸ DomainName.parse_append hparse more,
    by rw [hlower, DomainName.toWire_inj name.2 hheld]⟩

end Writing

end BoronDns
