import BoronDns.RecordDecoding
import BoronDns.Lib.FiniteMap

/-!
The record writer of responses that are built from stored records and not from
a compiled image. Its compressor maps the lowercased labels of every suffix
written so far to an offset. A record's data is a sequence of octets and names;
the names of NS, CNAME, PTR, SOA and MX data are written through the
compressor, and whatever is not of the form its type asks for is copied. What
is written reads back as the records that were given, up to the case of names.
-/

namespace BoronDns

open Bytes List Option RecordType

variable {packet : List UInt8} {compressor : NameCompressor} {pos next : ℕ} {labels : List Label}
  {parts : List RdataPart} {record : ResourceRecord}

def nameSuffixKey (labels : List Label) : List Label := labels.map lowerLabel

def nameWireLen (labels : List Label) : ℕ := (labels.map fun label => 1 + label.length).sum + 1

structure NameCompressor where
  suffixOffsets : AList fun _ : List Label => UInt16

namespace NameCompressor

def empty : NameCompressor := ⟨∅⟩

/-- `entry(..).or_insert(..)`. -/
def orInsert (compressor : NameCompressor) (labels : List Label) (offset : ℕ) : NameCompressor :=
  match compressor.suffixOffsets.lookup (nameSuffixKey labels) with
  | some _ => compressor
  | none => ⟨compressor.suffixOffsets.insert (nameSuffixKey labels) (UInt16.ofNat offset)⟩

/-- The loop of `register_name_at_offset` over the suffixes of a name. -/
def registerLabelsAtOffset (compressor : NameCompressor) : List Label → ℕ → NameCompressor
  | [], _ => compressor
  | label :: rest, offset =>
    registerLabelsAtOffset
      (if offset ≤ 0x3fff then compressor.orInsert (label :: rest) offset else compressor)
      rest (offset + (1 + label.length))

def registerNameAtOffset (compressor : NameCompressor) (name : DomainName) (startOffset : ℕ) :
    NameCompressor :=
  compressor.registerLabelsAtOffset name.labels startOffset

/-- The first suffix that is remembered: how many labels stand before it, and
its offset. -/
def pointerSuffix (compressor : NameCompressor) : List Label → Option (ℕ × UInt16)
  | [] => none
  | label :: rest =>
    match if nameWireLen (label :: rest) ≤ 2 then none
      else compressor.suffixOffsets.lookup (nameSuffixKey (label :: rest)) with
    | some offset => some (0, offset)
    | none => (compressor.pointerSuffix rest).map fun found => (found.1 + 1, found.2)

/-- The loop that writes the first `count` labels and remembers their suffixes. -/
def writeLabels : List Label → ℕ → List UInt8 → NameCompressor → List UInt8 × NameCompressor
  | label :: rest, count + 1, response, compressor =>
    writeLabels rest count (response ++ labelWire label)
      (if response.length ≤ 0x3fff then compressor.orInsert (label :: rest) response.length
      else compressor)
  | _, _, response, compressor => (response, compressor)

def writeName (compressor : NameCompressor) (name : DomainName) (response : List UInt8) :
    List UInt8 × NameCompressor :=
  let pointer := compressor.pointerSuffix name.labels
  let (response, after) := writeLabels name.labels
    ((pointer.map Prod.fst).getD name.labels.length) response compressor
  match pointer with
  | some (_, offset) => (response ++ pointerBytes offset, after)
  | none => (response ++ [0], after)

end NameCompressor

def encodeSingleNameRdata (rdata : Rdata) (response : List UInt8) (compressor : NameCompressor) :
    List UInt8 × NameCompressor :=
  match DomainName.parse rdata 0 with
  | .error _ => (response ++ rdata, compressor)
  | .ok (name, consumed) =>
    if consumed = rdata.length then compressor.writeName name response
    else (response ++ rdata, compressor)

def encodeSoaRdata (rdata : Rdata) (response : List UInt8) (compressor : NameCompressor) :
    List UInt8 × NameCompressor :=
  match DomainName.parse rdata 0 with
  | .error _ => (response ++ rdata, compressor)
  | .ok (mname, consumedMname) =>
    match DomainName.parse rdata consumedMname with
    | .error _ => (response ++ rdata, compressor)
    | .ok (rname, consumedRname) =>
      let timersOffset := consumedMname + consumedRname
      if timersOffset + 20 ≠ rdata.length then
        (response ++ rdata, compressor)
      else
        let (response, compressor) := compressor.writeName mname response
        let (response, compressor) := compressor.writeName rname response
        (response ++ rdata.drop timersOffset, compressor)

def encodeMxRdata (rdata : Rdata) (response : List UInt8) (compressor : NameCompressor) :
    List UInt8 × NameCompressor :=
  if rdata.length < 3 then
    (response ++ rdata, compressor)
  else
    match DomainName.parse rdata 2 with
    | .error _ => (response ++ rdata, compressor)
    | .ok (exchange, consumed) =>
      if 2 + consumed = rdata.length then
        compressor.writeName exchange (response ++ rdata.take 2)
      else
        (response ++ rdata, compressor)

variable (rrType : UInt16)

def encodeRecordRdataParts (rdata : Rdata) (response : List UInt8)
    (compressor : NameCompressor) : List UInt8 × NameCompressor :=
  if rrType = ns ∨ rrType = cname ∨ rrType = ptr then
    encodeSingleNameRdata rdata response compressor
  else if rrType = soa then
    encodeSoaRdata rdata response compressor
  else if rrType = mx then
    encodeMxRdata rdata response compressor
  else
    (response ++ rdata, compressor)

/-- The data length is left open and filled in once the data is written. -/
def encodeRecord (record : ResourceRecord) (response : List UInt8) (compressor : NameCompressor) :
    List UInt8 × NameCompressor :=
  let (response, compressor) := compressor.writeName record.owner response
  let response := response ++ be16 record.rrType ++ be16 record.cls ++ be32 record.ttl
  let rdlengthOffset := response.length
  let response := response ++ be16 0
  let rdataOffset := response.length
  let (response, compressor) :=
    encodeRecordRdataParts record.rrType record.rdata response compressor
  (putBe16 response rdlengthOffset (UInt16.ofNat (response.length - rdataOffset)), compressor)

def encodeRecords (records : List ResourceRecord) (response : List UInt8)
    (compressor : NameCompressor) : List UInt8 × NameCompressor :=
  records.foldl (fun written record => encodeRecord record written.1 written.2)
    (response, compressor)

namespace NameCompressor

/-- At every remembered offset the message holds the remembered name. -/
def Sound (compressor : NameCompressor) (packet : List UInt8) : Prop :=
  ∀ key offset, compressor.suffixOffsets.lookup key = some offset → HoldsName packet key offset

theorem sound_empty (packet : List UInt8) : empty.Sound packet := by
  intro key offset h
  simp [empty] at h

theorem Sound.append (h : compressor.Sound packet) (more : List UInt8) :
    compressor.Sound (packet ++ more) :=
  fun key offset hkey => (h key offset hkey).append more

theorem Sound.lookup (h : compressor.Sound packet) {offset : UInt16}
    (hfound : compressor.suffixOffsets.lookup (nameSuffixKey labels) = some offset) :
    HoldsName packet labels offset :=
  (h _ _ hfound).congr (by simp [nameSuffixKey, Function.comp_def])

variable {start : ℕ}

theorem lookup_orInsert {key : List Label} {offset : UInt16}
    (h : (compressor.orInsert labels start).suffixOffsets.lookup key = some offset) :
    compressor.suffixOffsets.lookup key = some offset ∨ key = nameSuffixKey labels ∧
      offset = UInt16.ofNat start := by
  unfold orInsert at h
  split at h
  · exact Or.inl h
  · by_cases hkey : key = nameSuffixKey labels
    · subst hkey
      rw [AList.lookup_insert] at h
      exact Or.inr ⟨rfl, (some.inj h).symm⟩
    · rw [AList.lookup_insert_ne hkey] at h
      exact Or.inl h

theorem Sound.orInsert (h : compressor.Sound packet)
    (hheld : HoldsName packet labels (UInt16.ofNat start)) :
    (compressor.orInsert labels start).Sound packet := by
  intro key offset hkey
  rcases lookup_orInsert hkey with hold | ⟨rfl, rfl⟩
  · exact h key offset hold
  · exact hheld.congr (by simp [nameSuffixKey, Function.comp_def])

/-- The question seeds the compressor with its own suffixes. -/
theorem Sound.registerNameAtOffset (hsound : compressor.Sound packet) (name : DomainName)
    (hat : At packet start name.toWire) :
    (compressor.registerNameAtOffset name start).Sound packet := by
  have hvalid : ValidLabels name.labels := name.labels_valid
  rw [DomainName.toWire] at hat
  unfold NameCompressor.registerNameAtOffset
  generalize name.labels = labels at hvalid hat
  induction labels generalizing compressor start with
  | nil => exact hsound
  | cons label rest ih =>
    have hnext : At packet (start + (1 + label.length)) (labelsWire rest ++ [0]) := by
      rw [labelsWire_cons, append_assoc] at hat
      simpa using hat.right_of_append (labelWire label)
    refine ih ?_ hvalid.cons.2 hnext
    split
    next hreach => exact hsound.orInsert (HoldsName.of_at hvalid (cons_ne_nil _ _) hreach hat)
    · exact hsound

/-- The labels in front of the first remembered suffix are written out, and the
whole name when there is none. -/
theorem pointerSuffix_cases (compressor : NameCompressor) (labels : List Label) :
    compressor.pointerSuffix labels = none ∨ ∃ (kept rest : List Label) (offset : UInt16),
      labels = kept ++ rest ∧
        compressor.pointerSuffix labels = some (kept.length, offset) ∧
        compressor.suffixOffsets.lookup (nameSuffixKey rest) = some offset := by
  induction labels with
  | nil => exact Or.inl rfl
  | cons label rest ih =>
    rw [pointerSuffix]
    split
    next offset hfound =>
      split at hfound
      · simp at hfound
      · exact Or.inr ⟨[], label :: rest, offset, rfl, rfl, hfound⟩
    · rcases ih with hnone | ⟨kept, tail, offset, hsplit, hsome, hfound⟩
      · exact Or.inl (by rw [hnone, map_none])
      · refine Or.inr ⟨label :: kept, tail, offset, by rw [hsplit, cons_append], ?_, hfound⟩
        rw [hsome, map_some, length_cons]

/-- The bytes and the remembered suffixes that writing labels adds. -/
theorem writeLabels_spec (kept rest : List Label) (response : List UInt8)
    (compressor : NameCompressor) :
    (writeLabels (kept ++ rest) kept.length response compressor).1 = response ++ labelsWire kept ∧
      ∀ key offset, (writeLabels (kept ++ rest) kept.length response
          compressor).2.suffixOffsets.lookup key = some offset →
        compressor.suffixOffsets.lookup key = some offset ∨ ∃ before after, kept = before ++ after ∧
        after ≠ [] ∧
            response.length + (labelsWire before).length ≤ 0x3fff ∧ key = nameSuffixKey
              (after ++ rest) ∧
            offset = UInt16.ofNat (response.length + (labelsWire before).length) := by
  induction kept generalizing response compressor with
  | nil =>
    rw [length_nil, writeLabels]
    · exact ⟨by simp, fun key offset h => Or.inl h⟩
    · simp
  | cons label tail ih =>
    rw [cons_append, length_cons, writeLabels]
    obtain ⟨hbytes, hentries⟩ := ih (response ++ labelWire label)
      (if response.length ≤ 0x3fff then
        compressor.orInsert (label :: (tail ++ rest)) response.length else compressor)
    refine ⟨by rw [hbytes, labelsWire_cons, append_assoc], ?_⟩
    intro key offset hkey
    rcases hentries key offset hkey with hold | ⟨before, after, rfl, hne, hreach, rfl, rfl⟩
    · split at hold
      next hreach =>
        rcases lookup_orInsert hold with hold | ⟨rfl, rfl⟩
        · exact Or.inl hold
        · exact Or.inr ⟨[], label :: tail, rfl, cons_ne_nil _ _, by simpa using hreach, rfl,
            by simp⟩
      · exact Or.inl hold
    · simp only [length_append, length_labelWire] at hreach ⊢
      refine Or.inr ⟨label :: before, after, rfl, hne, ?_, rfl, ?_⟩
      · simp only [labelsWire_cons, length_append, length_labelWire]
        omega
      · simp [Nat.add_assoc]

variable {name : DomainName}

/-- Labels written in front of what closes the name. -/
theorem Sound.writeLabels (hsound : compressor.Sound packet)
    (hfits : name.wireLen ≤ 255) {kept rest : List Label} {ending : List UInt8}
    (hsplit : name.labels = kept ++ rest) (hcloses : Closes packet kept rest ending) :
    (NameCompressor.writeLabels name.labels kept.length packet compressor).1 = packet ++
      labelsWire kept ∧
      (NameCompressor.writeLabels name.labels kept.length packet compressor).2.Sound
        (packet ++ (labelsWire kept ++ ending)) ∧
      NameReads (packet ++ (labelsWire kept ++ ending)) packet.length name.toWire
        (labelsWire kept ++ ending).length ∧
      (labelsWire kept ++ ending).length ≤ name.wireLen := by
  have hvalid : ValidLabels (kept ++ rest) := hsplit ▸ name.labels_valid
  obtain ⟨hbytes, hentries⟩ := writeLabels_spec kept rest packet compressor
  have hwritten := hcloses.written (forall_mem_append.mp hvalid).1
  have hlen := hcloses.length_le
  rw [← hsplit] at hbytes hentries hwritten hlen
  refine ⟨hbytes, ?_, hwritten.nameReads hfits, hlen.trans_eq name.length_toWire⟩
  intro key offset hkey
  rcases hentries key offset hkey with hold | ⟨before, after, rfl, hne, hreach, rfl, rfl⟩
  · exact (hsound key offset hold).append _
  · exact (HoldsName.of_closes hcloses hvalid hne hreach).congr
      (by simp [nameSuffixKey, Function.comp_def])

/-- Writing a name keeps the invariant, leaves the name in the message and takes
no more bytes than its uncompressed form. -/
theorem Sound.writeName (hsound : compressor.Sound packet) (hfits : name.wireLen ≤ 255) :
    ∃ (chunk : List UInt8) (after : NameCompressor),
      compressor.writeName name packet = (packet ++ chunk, after) ∧ after.Sound (packet ++ chunk) ∧
      NameReads (packet ++ chunk) packet.length name.toWire chunk.length ∧
      chunk.length ≤ name.wireLen := by
  unfold NameCompressor.writeName
  rcases compressor.pointerSuffix_cases name.labels with hnone | ⟨kept, rest, offset, hsplit, hsome,
    hfound⟩
  · obtain ⟨hbytes, hwritten⟩ :=
      hsound.writeLabels hfits (append_nil _).symm (closes_root name.labels)
    simp only [hnone, map_none, getD_none, hbytes]
    exact ⟨labelsWire name.labels ++ [0], _, by rw [append_assoc], hwritten⟩
  · have hrest : ValidLabels rest := fun label h =>
      name.labels_valid label (hsplit ▸ mem_append_right kept h)
    obtain ⟨hbytes, hwritten⟩ :=
      hsound.writeLabels hfits hsplit ((hsound.lookup hfound).closes hrest kept)
    simp only [hsome, map_some, getD_some, hbytes]
    exact ⟨labelsWire kept ++ pointerBytes offset, _, by rw [append_assoc], hwritten⟩

end NameCompressor

/-- A writer for which only the length of what is already written matters. -/
def Appends (write : List UInt8 → NameCompressor → List UInt8 × NameCompressor) : Prop :=
  ∀ (compressor : NameCompressor) (start : ℕ), ∃ (chunk : List UInt8) (after : NameCompressor),
    ∀ response : List UInt8, response.length = start →
    write response compressor = (response ++ chunk, after)

theorem Appends.octets (bytes : List UInt8) :
    Appends fun response compressor => (response ++ bytes, compressor) :=
  fun compressor _ => ⟨bytes, compressor, fun _ _ => rfl⟩

theorem Appends.comp {first second : List UInt8 → NameCompressor → List UInt8 × NameCompressor}
    (hfirst : Appends first) (hsecond : Appends second) :
    Appends fun response compressor => second (first response compressor).1
      (first response compressor).2 := by
  intro compressor start
  obtain ⟨chunk, middle, hchunk⟩ := hfirst compressor start
  obtain ⟨more, after, hmore⟩ := hsecond middle (start + chunk.length)
  refine ⟨chunk ++ more, after, ?_⟩
  intro response hlen
  dsimp only
  rw [hchunk response hlen, hmore (response ++ chunk) (by rw [length_append, hlen]),
    append_assoc]

theorem Appends.writeLabels (labels : List Label) (count : ℕ) :
    Appends (NameCompressor.writeLabels labels count) := by
  induction labels generalizing count with
  | nil =>
    exact fun compressor _ => ⟨[], compressor, fun _ _ => by simp [NameCompressor.writeLabels]⟩
  | cons label rest ih =>
    cases count with
    | zero =>
      exact fun compressor _ => ⟨[], compressor, fun _ _ => by simp [NameCompressor.writeLabels]⟩
    | succ count =>
      intro compressor start
      obtain ⟨chunk, after, hchunk⟩ := ih count
        (if start ≤ 0x3fff then compressor.orInsert (label :: rest) start else compressor)
        (start + (1 + label.length))
      refine ⟨labelWire label ++ chunk, after, ?_⟩
      rintro response rfl
      rw [NameCompressor.writeLabels, hchunk _ (by simp), append_assoc]

theorem Appends.writeName (name : DomainName) :
    Appends fun response compressor => compressor.writeName name response := by
  intro compressor start
  obtain ⟨chunk, after, hchunk⟩ := Appends.writeLabels name.labels
    (((compressor.pointerSuffix name.labels).map Prod.fst).getD name.labels.length) compressor start
  unfold NameCompressor.writeName
  cases hpointer : compressor.pointerSuffix name.labels with
  | some found =>
    rw [hpointer] at hchunk
    refine ⟨chunk ++ pointerBytes found.2, after, ?_⟩
    intro response hlen
    simp only [hpointer, hchunk response hlen, append_assoc]
  | none =>
    rw [hpointer] at hchunk
    refine ⟨chunk ++ [0], after, ?_⟩
    intro response hlen
    simp only [hpointer, hchunk response hlen, append_assoc]

/-- A piece of a record's data. -/
inductive RdataPart
  | octets (bytes : List UInt8)
  | name (name : DomainName)

/-- The data of a record as its type reads it: the names that may be compressed
and the octets around them. Data that is not of the form its type asks for is
octets only. -/
def rdataParts (rdata : Rdata) : List RdataPart :=
  if rrType = ns ∨ rrType = cname ∨ rrType = ptr then
    match DomainName.parse rdata 0 with
    | .error _ => [.octets rdata]
    | .ok (name, consumed) => if consumed = rdata.length then [.name name] else [.octets rdata]
  else if rrType = soa then
    match DomainName.parse rdata 0 with
    | .error _ => [.octets rdata]
    | .ok (mname, consumedMname) =>
      match DomainName.parse rdata consumedMname with
      | .error _ => [.octets rdata]
      | .ok (rname, consumedRname) =>
        if consumedMname + consumedRname + 20 = rdata.length then
          [.name mname, .name rname, .octets (rdata.drop (consumedMname + consumedRname))]
        else
          [.octets rdata]
  else if rrType = mx ∧ 3 ≤ rdata.length then
    match DomainName.parse rdata 2 with
    | .error _ => [.octets rdata]
    | .ok (exchange, consumed) =>
      if 2 + consumed = rdata.length then [.octets (rdata.take 2), .name exchange]
      else [.octets rdata]
  else
    [.octets rdata]

/-- The message holds the parts one after the other, over `len` bytes. -/
def PartsRead (packet : List UInt8) (pos : ℕ) : List RdataPart → ℕ → Prop
  | [], len => len = 0
  | .octets bytes :: rest, len => ∃ more, At packet pos bytes ∧
      PartsRead packet (pos + bytes.length) rest more ∧ len = bytes.length + more
  | .name name :: rest, len => ∃ nameLen more, NameReads packet pos name.toWire nameLen ∧
      PartsRead packet (pos + nameLen) rest more ∧ len = nameLen + more

def writeParts : List RdataPart → List UInt8 → NameCompressor → List UInt8 × NameCompressor
  | [], response, compressor => (response, compressor)
  | .octets bytes :: rest, response, compressor => writeParts rest (response ++ bytes) compressor
  | .name name :: rest, response, compressor =>
    writeParts rest (compressor.writeName name response).1 (compressor.writeName name response).2

/-- The data writers of all types write the parts of the data. -/
theorem encodeRecordRdataParts_eq (rdata : Rdata) (response : List UInt8)
    (compressor : NameCompressor) : encodeRecordRdataParts rrType rdata response compressor =
      writeParts (rdataParts rrType rdata) response compressor := by
  unfold encodeRecordRdataParts rdataParts
  split
  · unfold encodeSingleNameRdata
    split
    · rfl
    · split
      · rfl
      · rfl
  split
  · unfold encodeSoaRdata
    split
    · rfl
    split
    · rfl
    next consumedMname _ _ _ consumedRname _ =>
      by_cases hsize : consumedMname + consumedRname + 20 = rdata.length
      · simp only [hsize, ne_eq, not_true_eq_false, if_false, if_true]
        rfl
      · simp only [hsize, ne_eq, not_false_eq_true, if_false, if_true]
        rfl
  split
  next hmx =>
    unfold encodeMxRdata
    by_cases hshort : rdata.length < 3
    · rw [if_pos hshort, if_neg (by omega)]
      rfl
    · rw [if_neg hshort, if_pos ⟨hmx, by omega⟩]
      split
      · rfl
      · split
        · rfl
        · rfl
  next hmx =>
    rw [if_neg (fun h => hmx h.1)]
    rfl

theorem Appends.writeParts (parts : List RdataPart) : Appends (writeParts parts) := by
  induction parts with
  | nil => exact fun compressor _ => ⟨[], compressor, fun _ _ => by simp [BoronDns.writeParts]⟩
  | cons part rest ih =>
    cases part with
    | octets bytes => exact (Appends.octets bytes).comp ih
    | name name => exact (Appends.writeName name).comp ih

/-- The names among the parts fit in 255 octets. -/
def PartsFit (parts : List RdataPart) : Prop :=
  ∀ name, RdataPart.name name ∈ parts → name.wireLen ≤ 255

/-- The length of the parts with every name written out. -/
def partsLen (parts : List RdataPart) : ℕ :=
  (parts.map fun part => match part with
    | .octets bytes => bytes.length
    | .name name => name.wireLen).sum

theorem PartsRead.append {len : ℕ} (h : PartsRead packet pos parts len)
    (hpos : pos + len ≤ packet.length) (more : List UInt8) :
    PartsRead (packet ++ more) pos parts len := by
  induction parts generalizing pos len with
  | nil => exact h
  | cons part rest ih =>
    cases part with
    | octets bytes =>
      obtain ⟨tail, hat, hrest, rfl⟩ := h
      exact ⟨tail, hat.append (by omega) more, ih hrest (by omega), rfl⟩
    | name name =>
      obtain ⟨nameLen, tail, hname, hrest, rfl⟩ := h
      exact ⟨nameLen, tail, hname.append more, ih hrest (by omega), rfl⟩

/-- Written parts read back from where they were written. -/
theorem NameCompressor.Sound.writeParts (hsound : compressor.Sound packet)
    (hfits : PartsFit parts) : ∃ (chunk : List UInt8) (after : NameCompressor),
      BoronDns.writeParts parts packet compressor = (packet ++ chunk, after) ∧ after.Sound
        (packet ++ chunk) ∧
      PartsRead (packet ++ chunk) packet.length parts chunk.length ∧
      chunk.length ≤ partsLen parts := by
  induction parts generalizing packet compressor with
  | nil =>
    refine ⟨[], compressor, by simp [BoronDns.writeParts], ?_, rfl, le_rfl⟩
    rw [append_nil]
    exact hsound
  | cons part rest ih =>
    have hrest : PartsFit rest := fun name h => hfits name (mem_cons_of_mem _ h)
    cases part with
    | octets bytes =>
      obtain ⟨chunk, after, hwrite, hafter, hread, hlen⟩ := ih (hsound.append bytes) hrest
      rw [append_assoc] at hwrite hafter
      refine ⟨bytes ++ chunk, after, hwrite, hafter, ⟨chunk.length, At.at_end_append _ _ _, ?_,
        length_append⟩, ?_⟩
      · rw [← append_assoc, ← length_append]
        exact hread
      · simp only [partsLen, map_cons, sum_cons, length_append] at hlen ⊢
        omega
    | name name =>
      obtain ⟨first, middle, hname, hmiddle, hfirst, hshort⟩ :=
        hsound.writeName (hfits name mem_cons_self)
      obtain ⟨chunk, after, hwrite, hafter, hread, hlen⟩ := ih hmiddle hrest
      refine ⟨first ++ chunk, after, ?_, ?_, ⟨first.length, chunk.length, ?_, ?_, length_append⟩,
        ?_⟩
      · rw [BoronDns.writeParts, hname, hwrite, append_assoc]
      · rw [← append_assoc]
        exact hafter
      · rw [← append_assoc]
        exact hfirst.append chunk
      · rw [← append_assoc, ← length_append]
        exact hread
      · simp only [partsLen, map_cons, sum_cons, length_append] at hlen ⊢
        omega

/-- The names in a record's data were parsed, so they fit; written out, the data
is no longer than a data length can say. -/
theorem rdataParts_fit {rdata : Rdata} (h : rdata.length ≤ 65535) :
    PartsFit (rdataParts rrType rdata) ∧ partsLen (rdataParts rrType rdata) ≤ 65535 := by
  have hcopy : PartsFit [.octets rdata] ∧ partsLen [.octets rdata] ≤ 65535 :=
    ⟨by simp [PartsFit], by simpa [partsLen] using h⟩
  unfold rdataParts
  split
  · split
    · exact hcopy
    rename_i name consumed hname
    have hfits := DomainName.wireLen_of_parse hname
    split
    · simp only [PartsFit, partsLen, mem_singleton, RdataPart.name.injEq, forall_eq,
        map_cons, map_nil, sum_cons, sum_nil]
      omega
    · exact hcopy
  split
  · split
    · exact hcopy
    rename_i mname consumedMname hmname
    split
    · exact hcopy
    rename_i rname consumedRname hrname
    have hm := DomainName.wireLen_of_parse hmname
    have hr := DomainName.wireLen_of_parse hrname
    split
    · refine ⟨by simp [PartsFit, or_imp, forall_and, hm, hr], ?_⟩
      simp only [partsLen, map_cons, map_nil, sum_cons, sum_nil, length_drop]
      omega
    · exact hcopy
  split
  · split
    · exact hcopy
    rename_i exchange consumed hexchange
    have hfits := DomainName.wireLen_of_parse hexchange
    split
    · refine ⟨by simp [PartsFit, hfits], ?_⟩
      simp only [partsLen, map_cons, map_nil, sum_cons, sum_nil, length_take]
      omega
    · exact hcopy
  · exact hcopy

/-- The message holds `record` at `pos`, and the next record starts at `next`. -/
def ResourceRecord.ReadsAt (record : ResourceRecord) (packet : List UInt8) (pos next : ℕ) : Prop :=
  ∃ ownerLen rdataLen : ℕ, rdataLen ≤ 65535 ∧ NameReads packet pos record.owner.toWire ownerLen ∧
    At packet (pos + ownerLen) (be16 record.rrType ++ be16 record.cls ++ be32 record.ttl ++
      be16 (UInt16.ofNat rdataLen)) ∧
    PartsRead packet (pos + ownerLen + 10) (rdataParts record.rrType record.rdata) rdataLen ∧
    next = pos + ownerLen + 10 + rdataLen ∧ next ≤ packet.length

/-- The message holds the records one after the other. -/
def RecordsReadAt (packet : List UInt8) (pos : ℕ) : List ResourceRecord → ℕ → Prop
  | [], next => next = pos
  | record :: rest, next => ∃ middle, record.ReadsAt packet pos middle ∧
      RecordsReadAt packet middle rest next

theorem ResourceRecord.ReadsAt.append (h : record.ReadsAt packet pos next) (more : List UInt8) :
    record.ReadsAt (packet ++ more) pos next := by
  obtain ⟨ownerLen, rdataLen, hsmall, hown, hfixed, hrdata, rfl, hbound⟩ := h
  refine ⟨ownerLen, rdataLen, hsmall, hown.append more, hfixed.append (by omega) more,
    hrdata.append hbound more, rfl, ?_⟩
  rw [length_append]
  omega

variable {records : List ResourceRecord}

theorem RecordsReadAt.append (h : RecordsReadAt packet pos records next)
    (more : List UInt8) : RecordsReadAt (packet ++ more) pos records next := by
  induction records generalizing pos with
  | nil => exact h
  | cons record rest ih =>
    obtain ⟨middle, hrec, hrest⟩ := h
    exact ⟨middle, hrec.append more, ih hrest⟩

/-- Every record takes its owner, ten octets and its data. -/
theorem RecordsReadAt.length_le (h : RecordsReadAt packet pos records next) :
    pos + 10 * records.length ≤ next := by
  induction records generalizing pos with
  | nil => exact Nat.le_of_eq h.symm
  | cons record rest ih =>
    obtain ⟨middle, ⟨ownerLen, rdataLen, -, -, -, -, hmiddle, -⟩, hrest⟩ := h
    have htail := ih hrest
    rw [length_cons]
    omega

/-- What the zone guarantees of a stored record. -/
structure ResourceRecord.Storable (record : ResourceRecord) : Prop where
  owner_fits : record.owner.wireLen ≤ 255
  rdata_fits : record.rdata.length ≤ 65535

/-- A written record reads back from where it was written. -/
theorem NameCompressor.Sound.encodeRecord (hsound : compressor.Sound packet)
    (hrec : record.Storable) : ∃ (chunk : List UInt8) (after : NameCompressor),
      BoronDns.encodeRecord record packet compressor = (packet ++ chunk, after) ∧ after.Sound
        (packet ++ chunk) ∧
      record.ReadsAt (packet ++ chunk) packet.length (packet ++ chunk).length := by
  obtain ⟨hfit, hsize⟩ := rdataParts_fit record.rrType hrec.rdata_fits
  obtain ⟨owner, named, hown, hnamed, hownerRead, -⟩ := hsound.writeName hrec.owner_fits
  let fixed := be16 record.rrType ++ be16 record.cls ++ be32 record.ttl
  -- the data is written behind an open length field and read behind the filled one
  obtain ⟨rdata, after, hframe⟩ := Appends.writeParts (rdataParts record.rrType record.rdata) named
    (packet ++ owner ++ fixed ++ be16 0).length
  have hopen := hframe (packet ++ owner ++ fixed ++ be16 0) rfl
  have hfilled := hframe (packet ++ owner ++ fixed ++ be16 (UInt16.ofNat rdata.length))
    (by simp)
  obtain ⟨chunk, final, hwrite, hfinal, hread, hlen⟩ :=
    ((hnamed.append fixed).append (be16 (UInt16.ofNat rdata.length))).writeParts hfit
  obtain ⟨hchunk, rfl⟩ := Prod.mk.inj (hfilled.symm.trans hwrite)
  obtain rfl := append_cancel_left hchunk
  obtain ⟨hname, hfields, hpos⟩ := hownerRead.framed (show fixed.length = 8 from rfl) rfl rdata
  have hencode : BoronDns.encodeRecord record packet compressor =
      (packet ++ owner ++ fixed ++ be16 (UInt16.ofNat rdata.length) ++ rdata, after) := by
    unfold BoronDns.encodeRecord
    simp only [hown, encodeRecordRdataParts_eq]
    have hstart : packet ++ owner ++ be16 record.rrType ++ be16 record.cls ++ be32 record.ttl =
        packet ++ owner ++ fixed := by
      simp [fixed]
    rw [hstart, hopen]
    dsimp only
    rw [putBe16_append, length_append, Nat.add_sub_cancel_left]
  have hrec : record.ReadsAt _ packet.length _ := ⟨owner.length, rdata.length, by omega, hname,
    hfields, hpos ▸ hread, by rw [length_append, hpos], le_rfl⟩
  simp only [append_assoc] at hencode hfinal hrec
  exact ⟨_, after, hencode, hfinal, hrec⟩

/-- The records of a message read back in the order they were written. -/
theorem NameCompressor.Sound.encodeRecords (hsound : compressor.Sound packet)
    (hrecs : ∀ record ∈ records, record.Storable) :
    ∃ (chunk : List UInt8) (after : NameCompressor),
      BoronDns.encodeRecords records packet compressor = (packet ++ chunk, after) ∧
      RecordsReadAt (packet ++ chunk) packet.length records (packet ++ chunk).length := by
  induction records generalizing packet compressor with
  | nil => exact ⟨[], compressor, by simp [BoronDns.encodeRecords], by simp [RecordsReadAt]⟩
  | cons record rest ih =>
    obtain ⟨chunk, middle, hwrite, hmiddle, hrec⟩ :=
      hsound.encodeRecord (hrecs record mem_cons_self)
    obtain ⟨more, after, hrest, hread⟩ :=
      ih hmiddle (fun other hother => hrecs other (mem_cons_of_mem _ hother))
    refine ⟨chunk ++ more, after, ?_, ?_⟩
    · rw [← append_assoc, ← hrest, BoronDns.encodeRecords, foldl_cons, hwrite]
      rfl
    · rw [← append_assoc]
      exact ⟨(packet ++ chunk).length, hrec.append more, hread⟩

end BoronDns
