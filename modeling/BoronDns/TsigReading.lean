import BoronDns.CompressorSoundness
import BoronDns.Tsig

/-!
Finding the TSIG record. A plain message is one whose counts tell its sections,
whose names do not point to the count of additional records, and which has no TSIG.
A record appended to it, with that count raised, is what the verifier finds, and
stripping it gives the plain message back byte for byte.
-/

namespace BoronDns

open Bytes List UInt16 Nat
open Outcome (ofExcept_ok ok_bind slice_of_at u16At_of_at u32At_of_at)

variable {pos next stop pointers : ℕ} {labels : List Label}

section Names

theorem parseLoop_map_consumed (packet : List UInt8) (offset pos : ℕ) (name : DomainName)
    (consumed : Option ℕ) (followed total : ℕ) (lower : Bool) :
    (parseLoop packet offset pos name consumed followed total lower).map
      (fun parsed => parsed.2.1) = skipNameLoop packet offset pos consumed followed total := by
  fun_induction parseLoop packet offset pos name consumed followed total lower with
  | case5 pos name consumed followed total lower len hget hpointer next hnext hback hfollow ih =>
    rw [ih]
    nth_rewrite 2 [skipNameLoop]
    simp [hget, hnext, hpointer, hback, hfollow]
  | case9 pos name consumed followed total lower len hget hpointer hplain hzero hfits
      hmax label ih =>
    rw [ih]
    nth_rewrite 2 [skipNameLoop]
    simp [hget, if_neg hpointer, if_pos hplain, hzero, hfits, hmax]
  | _ => rw [skipNameLoop]; simp_all [Except.map]

variable {packet : List UInt8} {name : DomainName}

theorem skipCompressedName_of_parse {offset len : ℕ}
    (h : DomainName.parse packet offset = .ok (name, len)) :
    skipCompressedName packet offset = .ok len := by
  rw [skipCompressedName,
    ← parseLoop_map_consumed packet offset offset DomainName.root none 0 1 true]
  unfold DomainName.parse DomainName.parseWithAsciiLowercase at h
  cases hloop : parseLoop packet offset offset DomainName.root none 0 1 true with
  | error e => simp [hloop, Except.map] at h
  | ok parsed =>
    rw [hloop] at h
    simp only [Except.map, Except.ok.injEq, Prod.mk.injEq] at h ⊢
    exact h.2

/-- The octets are not those of the count of additional records, which signing changes. -/
def BesideArcount (pos length : ℕ) : Prop := pos + length ≤ 10 ∨ dnsHeaderLen ≤ pos

/-- A name of the message that is read from other octets than the count of additional records. -/
inductive NameInBody (packet : List UInt8) : ℕ → List Label → ℕ → ℕ → Prop
  | root {pos : ℕ} (hpos : BesideArcount pos 1) (h : At packet pos [0]) :
      NameInBody packet pos [] 0 (pos + 1)
  | label {pos pointers next : ℕ} {label : Label} {labels : List Label}
      (hpos : BesideArcount pos (labelWire label).length)
      (h : At packet pos (labelWire label)) (hvalid : 0 < label.length ∧ label.length ≤ 63)
      (rest : NameInBody packet (pos + 1 + label.length) labels pointers next) :
      NameInBody packet pos (label :: labels) pointers next
  | pointer {pos pointers next : ℕ} {high low : UInt8} {labels : List Label}
      (hpos : BesideArcount pos 2) (h : At packet pos [high, low]) (hhigh : high &&& 0xc0 = 0xc0)
      (hback : pointerTarget high low < pos)
      (rest : NameInBody packet (pointerTarget high low) labels pointers next) :
      NameInBody packet pos labels (pointers + 1) (pos + 2)

theorem NameInBody.wireNameAt (h : NameInBody packet pos labels pointers next) :
    WireNameAt packet pos labels pointers next := by
  induction h with
  | root _ h => exact .root h
  | label _ h hvalid _ ih => exact .label h hvalid ih
  | pointer _ h hhigh hback _ ih => exact .pointer h hhigh hback ih

/-- The other packet has the same bytes but for the count of additional records, and maybe more
at the end. -/
structure SameBody (packet other : List UInt8) : Prop where
  length_le : packet.length ≤ other.length
  keeps : ∀ {pos : ℕ} {chunk : List UInt8}, At packet pos chunk → chunk ≠ [] →
    BesideArcount pos chunk.length → At other pos chunk

variable {packet other : List UInt8}

theorem NameInBody.transfer (hsame : SameBody packet other)
    (h : NameInBody packet pos labels pointers next) :
    NameInBody other pos labels pointers next := by
  induction h with
  | root hpos h => exact .root hpos (hsame.keeps h (by simp) hpos)
  | label hpos h hvalid _ ih =>
    exact .label hpos (hsame.keeps h (by simp [labelWire]) hpos) hvalid ih
  | pointer hpos h hhigh hback _ ih =>
    exact .pointer hpos (hsame.keeps h (by simp) hpos) hhigh hback ih

/-- The name can be parsed: it fits in 255 octets and follows at most 128 pointers. -/
structure ReadableName (packet : List UInt8) (pos next : ℕ) (labels : List Label) : Prop where
  reads : ∃ pointers, NameInBody packet pos labels pointers next ∧
    pointers ≤ maxCompressedNamePointers
  fits : (labelsWire labels).length + 1 ≤ 255

theorem ReadableName.transfer (hsame : SameBody packet other)
    (h : ReadableName packet pos next labels) : ReadableName other pos next labels := by
  obtain ⟨pointers, hname, hfew⟩ := h.reads
  exact ⟨⟨pointers, hname.transfer hsame, hfew⟩, h.fits⟩

theorem ReadableName.parse (h : ReadableName packet pos next labels) :
    ∃ name : DomainName, name.labels = labels ∧
      DomainName.parse packet pos = .ok (name, next - pos) ∧ pos < next := by
  obtain ⟨pointers, hname, hfew⟩ := h.reads
  obtain ⟨name, hlabels, hparse⟩ := DomainName.parse_of_wireNameAt hname.wireNameAt hfew h.fits
  exact ⟨name, hlabels, hparse, hname.wireNameAt.lt⟩

/-- A name written in full is read back. -/
theorem readableName_of_at (hpos : dnsHeaderLen ≤ pos) (hfits : name.wireLen ≤ 255)
    (h : At packet pos name.toWire) :
    ReadableName packet pos (pos + name.toWire.length) name.labels := by
  have key : ∀ (labels : List Label) (pos : ℕ), dnsHeaderLen ≤ pos → ValidLabels labels →
      At packet pos (labelsWire labels ++ [0]) →
      NameInBody packet pos labels 0 (pos + (labelsWire labels).length + 1) := by
    intro labels
    induction labels with
    | nil => exact fun pos hpos _ h => .root (.inr hpos) h
    | cons label rest ih =>
      intro pos hpos hvalid h
      obtain ⟨hlabel, hrest⟩ := hvalid.cons
      rw [labelsWire_cons, append_assoc] at h
      have hnext := h.right_of_append (labelWire label)
      rw [length_labelWire, ← add_assoc] at hnext
      have hname := ih (pos + 1 + label.length) (by omega) hrest hnext
      rw [labelsWire_cons, length_append, length_labelWire, ← add_assoc, ← add_assoc]
      exact .label (.inr hpos) h.left_of_append hlabel hname
  have hname := key name.labels pos hpos name.labels_valid h
  refine ⟨⟨0, ?_, zero_le _⟩, ?_⟩
  · rw [DomainName.toWire, length_append]
    exact hname
  · rw [name.length_labelsWire_add_one]
    exact hfits

end Names

section Sections

variable (rrType cls : UInt16) (ttl : UInt32)

/-- The fields of a record behind its owner. -/
def recordTail (rdata : List UInt8) : List UInt8 :=
  be16 rrType ++ be16 cls ++ be32 ttl ++ be16 (UInt16.ofNat rdata.length) ++ rdata

theorem length_recordTail (rdata : List UInt8) :
    (recordTail rrType cls ttl rdata).length = 10 + rdata.length := by
  simp [recordTail]
  omega

theorem recordTail_ne_nil (rdata : List UInt8) : recordTail rrType cls ttl rdata ≠ [] := by
  simp [recordTail, be16]

/-- `count` questions stand from the first position to the second. -/
inductive Questions (packet : List UInt8) : ℕ → ℕ → ℕ → Prop
  | nil {pos : ℕ} : Questions packet 0 pos pos
  | cons {count pos next stop : ℕ} {labels : List Label}
      (hname : ReadableName packet pos next labels)
      (hfits : next + 4 ≤ packet.length) (rest : Questions packet count (next + 4) stop) :
      Questions packet (count + 1) pos stop

/-- `count` records that are no TSIG stand from the first position to the second. -/
inductive PlainRecords (packet : List UInt8) : ℕ → ℕ → ℕ → Prop
  | nil {pos : ℕ} : PlainRecords packet 0 pos pos
  | cons {count pos next stop : ℕ} {labels : List Label} {rrType cls : UInt16} {ttl : UInt32}
      {rdata : List UInt8} (hname : ReadableName packet pos next labels)
      (hfields : At packet next (recordTail rrType cls ttl rdata)) (hlength : rdata.length < 65536)
      (htype : rrType ≠ tsigRrType)
      (rest : PlainRecords packet count (next + 10 + rdata.length) stop) :
      PlainRecords packet (count + 1) pos stop

variable {packet other : List UInt8}

variable {count : ℕ}

theorem ReadableName.lt (h : ReadableName packet pos next labels) : pos < next := by
  obtain ⟨pointers, hname, -⟩ := h.reads
  exact hname.wireNameAt.lt

theorem Questions.transfer (hsame : SameBody packet other) (h : Questions packet count pos stop) :
    Questions other count pos stop ∧ pos ≤ stop := by
  induction h with
  | nil => exact ⟨.nil, le_rfl⟩
  | cons hname hfits _ ih =>
    have hlt := hname.lt
    exact ⟨.cons (hname.transfer hsame) (hfits.trans hsame.length_le) ih.1, by omega⟩

theorem PlainRecords.transfer (hsame : SameBody packet other)
    (h : PlainRecords packet count pos stop) (hpos : dnsHeaderLen ≤ pos) :
    PlainRecords other count pos stop ∧ dnsHeaderLen ≤ stop := by
  induction h with
  | nil => exact ⟨.nil, hpos⟩
  | cons hname hfields hlen htype _ ih =>
    have hlt := hname.lt
    obtain ⟨hrest, hstop⟩ := ih (by omega)
    have hkept := hsame.keeps hfields (recordTail_ne_nil _ _ _ _) (.inr (by omega))
    exact ⟨.cons (hname.transfer hsame) hkept hlen htype hrest, hstop⟩

theorem Questions.skip (h : Questions packet count pos stop) :
    skipQuestions packet count pos = .ok stop := by
  induction h with
  | nil => rfl
  | @cons count pos next stop labels hname hfits _ ih =>
    obtain ⟨name, -, hparse, hlt⟩ := hname.parse
    rw [skipQuestions, skipCompressedName_of_parse hparse]
    have hend : pos + (next - pos) = next := by omega
    simp only [ofExcept_ok, ok_bind, hend]
    rw [if_neg (by omega), ih]

/-- A record that stands in the message is read as it stands. -/
theorem parseRecordView_eq {rrType cls : UInt16} {ttl : UInt32} {rdata : List UInt8}
    (hname : ReadableName packet pos next labels)
    (hfields : At packet next (recordTail rrType cls ttl rdata)) (hlength : rdata.length < 65536) :
    ∃ owner : DomainName, owner.labels = labels ∧
      parseRecordView packet pos = .ok
        ⟨owner, rrType, cls, ttl, rdata, pos, next + 10 + rdata.length⟩ := by
  obtain ⟨owner, hlabels, hparse, hlt⟩ := hname.parse
  have hbound := hfields.bound (recordTail_ne_nil _ _ _ _)
  rw [length_recordTail] at hbound
  have hend : pos + (next - pos) = next := by omega
  simp only [recordTail, append_assoc] at hfields
  have hcls : At packet (next + 2) _ := hfields.right_of_append (be16 rrType)
  have httl : At packet (next + 4) _ := hcls.right_of_append (be16 cls)
  have hlen : At packet (next + 8) _ := httl.right_of_append (be32 ttl)
  have hrdata : At packet (next + 10) rdata := hlen.right_of_append (be16 _)
  refine ⟨owner, hlabels, ?_⟩
  rw [parseRecordView, hparse]
  simp only [ofExcept_ok, ok_bind, hend]
  rw [if_neg (by omega), u16At_of_at hfields.left_of_append, ok_bind,
    u16At_of_at hcls.left_of_append, ok_bind, u32At_of_at httl.left_of_append,
    ok_bind, u16At_of_at hlen.left_of_append, ok_bind,
    toNat_ofNat_of_lt' hlength, if_neg (by omega), slice_of_at hrdata rfl (by omega)]
  rfl

theorem PlainRecords.skip (h : PlainRecords packet count pos stop) :
    skipRecords packet count pos = .ok stop := by
  induction h with
  | nil => rfl
  | cons hname hfields hlen htype _ ih =>
    obtain ⟨owner, -, hview⟩ := parseRecordView_eq hname hfields hlen
    rw [skipRecords, hview]
    simp only [ok_bind, if_neg htype]
    exact ih

/-- The loop over the additional records passes over plain ones. -/
theorem PlainRecords.additional (h : PlainRecords packet count pos stop)
    (arcount : UInt16) (remaining : ℕ) (index : UInt16) (view : Option RecordView) :
    additionalRecords packet arcount (count + remaining) index pos view =
      additionalRecords packet arcount remaining (index + UInt16.ofNat count) stop view := by
  induction h generalizing index with
  | nil => simp
  | @cons count pos next stop labels rrType cls ttl rdata hname hfields hlen htype _ ih =>
    obtain ⟨owner, -, hview⟩ := parseRecordView_eq hname hfields hlen
    rw [add_right_comm, additionalRecords, hview]
    simp only [ok_bind, if_neg htype]
    rw [ih, ofNat_add, add_assoc, add_comm 1]
    rfl

end Sections

section Messages

/-- The counts in the header tell the sections, and no record is a TSIG. -/
structure PlainMessage (message : List UInt8) (arcount : UInt16) : Prop where
  header : dnsHeaderLen ≤ message.length
  arcountAt : At message 10 (be16 arcount)
  sections : ∃ (qdcount ancount nscount : UInt16) (questions answers authority : ℕ),
    At message 4 (be16 qdcount) ∧ At message 6 (be16 ancount) ∧ At message 8 (be16 nscount) ∧
      Questions message qdcount.toNat dnsHeaderLen questions ∧
      PlainRecords message ancount.toNat questions answers ∧
      PlainRecords message nscount.toNat answers authority ∧
      PlainRecords message arcount.toNat authority message.length

variable {message : List UInt8} {arcount : UInt16}

theorem finalTsigRecordView_of_plain (h : PlainMessage message arcount) :
    finalTsigRecordView message = .ok none := by
  obtain ⟨qdcount, ancount, nscount, questions, answers, authority, hqd, han, hns, hquestions,
    hans, hauthority, hadditional⟩ := h.sections
  have hloop := hadditional.additional arcount 0 0 none
  rw [add_zero] at hloop
  have hlen := h.header
  rw [finalTsigRecordView, if_neg (by omega), u16At_of_at hqd, ok_bind,
    u16At_of_at han, ok_bind, u16At_of_at hns, ok_bind,
    u16At_of_at h.arcountAt, ok_bind, hquestions.skip, ok_bind, hans.skip,
    ok_bind, hauthority.skip, ok_bind, hloop]
  simp [additionalRecords]

/-- The message with another count of additional records. -/
def withArcount (message : List UInt8) (arcount : UInt16) : List UInt8 :=
  message.take 10 ++ be16 arcount ++ message.drop dnsHeaderLen

variable (count : UInt16)

theorem length_withArcount (h : dnsHeaderLen ≤ message.length) (count : UInt16) :
    (withArcount message count).length = message.length := by
  simp only [dnsHeaderLen] at h
  simp only [withArcount, dnsHeaderLen, length_append, length_take, length_drop, length_be16]
  omega

theorem take_withArcount (h : dnsHeaderLen ≤ message.length) (count : UInt16) :
    (withArcount message count).take 10 = message.take 10 := by
  simp only [dnsHeaderLen] at h
  rw [withArcount, append_assoc, take_left']
  rw [length_take]
  omega

theorem drop_withArcount (h : dnsHeaderLen ≤ message.length) (count : UInt16) :
    (withArcount message count).drop dnsHeaderLen = message.drop dnsHeaderLen := by
  refine drop_left' ?_
  rw [length_append, length_take, length_be16]
  simp only [dnsHeaderLen] at h ⊢
  omega

theorem withArcount_withArcount (h : dnsHeaderLen ≤ message.length) (first second : UInt16) :
    withArcount (withArcount message first) second = withArcount message second := by
  rw [withArcount, take_withArcount h, drop_withArcount h]
  rfl

theorem withArcount_self (h : PlainMessage message arcount) :
    withArcount message arcount = message := by
  obtain ⟨rest, hrest⟩ := h.arcountAt
  have hdrop : message.drop dnsHeaderLen = rest := by
    rw [dnsHeaderLen, ← drop_drop (i := 2) (j := 10), ← hrest, drop_left']
    rfl
  rw [withArcount, append_assoc, hdrop, hrest, take_append_drop]

theorem write_arcount (h : dnsHeaderLen ≤ message.length) (count : UInt16) :
    (Outcome.write message dnsHeaderArcountOffset (be16 count) : Outcome TsigError _) =
      .ok (withArcount message count) :=
  Outcome.write_eq_ok h

/-- The header before the count is that of the plain message. -/
theorem at_withArcount (h : dnsHeaderLen ≤ message.length) (count : UInt16) {chunk : List UInt8}
    (hat : At message pos chunk) (hpos : pos + chunk.length ≤ 10) (more : List UInt8) :
    At (withArcount message count ++ more) pos chunk := by
  have hlen : (message.take 10).length = 10 := by
    rw [length_take]
    exact min_eq_left (le_trans (by decide) h)
  have htake : At (message.take 10) pos chunk := by
    unfold At at hat ⊢
    rw [drop_take, prefix_take_iff]
    exact ⟨hat, by omega⟩
  rw [withArcount, append_assoc, append_assoc]
  exact htake.append (by omega) _

/-- A TSIG record behind the message, which its count of records includes. -/
def attached (message : List UInt8) (arcount : UInt16) (keyName : DomainName) (rdata : List UInt8) :
    List UInt8 :=
  withArcount message (arcount + 1) ++
    (canonicalNameWire keyName ++ recordTail tsigRrType dnsClassAny tsigTtl rdata)

theorem sameBody_attached (h : dnsHeaderLen ≤ message.length) (arcount : UInt16)
    (keyName : DomainName) (rdata : List UInt8) :
    SameBody message (attached message arcount keyName rdata) := by
  have hlen := length_withArcount h (arcount + 1)
  refine ⟨by rw [attached, length_append]; omega, fun {pos chunk} hat hne hpos => ?_⟩
  rcases hpos with hfront | hback
  · exact at_withArcount h _ hat hfront _
  · have hbound := hat.bound hne
    have hpositive := length_pos_iff.mpr hne
    obtain ⟨skipped, rfl⟩ := Nat.exists_eq_add_of_le hback
    unfold At at hat ⊢
    rw [← drop_drop] at hat ⊢
    rw [attached, drop_append_of_le_length (by omega), drop_withArcount h, drop_append_of_le_length]
    · exact hat.trans (prefix_append _ _)
    · rw [length_drop]
      omega

theorem arcountAt_attached (h : dnsHeaderLen ≤ message.length) (arcount : UInt16)
    (keyName : DomainName) (rdata : List UInt8) :
    At (attached message arcount keyName rdata) 10 (be16 (arcount + 1)) := by
  have htake : (message.take 10).length = 10 := by
    rw [length_take]
    exact min_eq_left (le_trans (by decide) h)
  have hat := At.at_end_append (message.take 10) (be16 (arcount + 1)) (message.drop dnsHeaderLen ++
    (canonicalNameWire keyName ++ recordTail tsigRrType dnsClassAny tsigTtl rdata))
  rw [htake] at hat
  simpa [attached, withArcount, append_assoc] using hat

/-- The record that the verifier finds. -/
theorem finalTsigRecordView_attached (h : PlainMessage message arcount)
    (hcount : arcount.toNat < 65535) {keyName : DomainName} (hname : keyName.wireLen ≤ 255)
    {rdata : List UInt8} (hrdata : rdata.length < 65536) :
    finalTsigRecordView (attached message arcount keyName rdata) =
      .ok (some ⟨keyName.toAsciiLowercased, tsigRrType, dnsClassAny, tsigTtl, rdata, message.length,
        (attached message arcount keyName rdata).length⟩) := by
  obtain ⟨qdcount, ancount, nscount, questions, answers, authority, hqd, han, hns, hquestions,
    hans, hauthority, hadditional⟩ := h.sections
  have hheader := h.header
  have hsame := sameBody_attached hheader arcount keyName rdata
  have hlen := length_withArcount hheader (arcount + 1)
  have hplus : (arcount + 1).toNat = arcount.toNat + 1 := by
    simp
    omega
  have harcount := arcountAt_attached hheader arcount keyName rdata
  have hrec : At (attached message arcount keyName rdata) message.length
      (canonicalNameWire keyName ++ recordTail tsigRrType dnsClassAny tsigTtl rdata) := by
    rw [← hlen]
    exact At.at_end _ _
  have hreadable :=
    readableName_of_at hheader (DomainName.wireLen_toAsciiLowercased keyName ▸ hname)
    hrec.left_of_append
  obtain ⟨owner, hown, hview⟩ := parseRecordView_eq hreadable (hrec.right_of_append _) hrdata
  obtain rfl : owner = keyName.toAsciiLowercased := DomainName.ext hown
  have hstop : message.length + keyName.toAsciiLowercased.toWire.length + 10 + rdata.length =
      (attached message arcount keyName rdata).length := by
    rw [attached, length_append, hlen, length_append, length_recordTail, canonicalNameWire]
    omega
  rw [hstop] at hview
  obtain ⟨hquestions, hstart⟩ := hquestions.transfer hsame
  obtain ⟨hans, hstart⟩ := hans.transfer hsame hstart
  obtain ⟨hauthority, hstart⟩ := hauthority.transfer hsame hstart
  have hloop := (hadditional.transfer hsame hstart).1.additional (arcount + 1) 1 0 none
  rw [← hplus] at hloop
  have hqd' : At (attached message arcount keyName rdata) 4 (be16 qdcount) :=
    at_withArcount hheader _ hqd (by simp) _
  have han' : At (attached message arcount keyName rdata) 6 (be16 ancount) :=
    at_withArcount hheader _ han (by simp) _
  have hns' : At (attached message arcount keyName rdata) 8 (be16 nscount) :=
    at_withArcount hheader _ hns (by simp) _
  have hindex : (0 : UInt16) + UInt16.ofNat arcount.toNat + 1 = arcount + 1 := by simp
  rw [finalTsigRecordView, if_neg (not_lt.mpr (hheader.trans hsame.length_le)), u16At_of_at hqd',
    ok_bind, u16At_of_at han', ok_bind, u16At_of_at hns', ok_bind, u16At_of_at harcount, ok_bind,
    hquestions.skip, ok_bind, hans.skip, ok_bind, hauthority.skip, ok_bind, hloop]
  have hadd : (Outcome.addU16 (0 + UInt16.ofNat arcount.toNat) 1 : Outcome TsigError UInt16) =
      .ok (arcount + 1) := by
    rw [Outcome.addU16, if_pos]
    · exact congrArg Outcome.ok hindex
    · simp
      omega
  simp only [additionalRecords, hview, ok_bind, if_true, hadd, ne_eq, not_true_eq_false, if_false]

end Messages

theorem u48FromWire_append (value : UInt64) :
    u48FromWire (u48Wire value) = .ok (UInt64.ofNat (value.toNat % 2 ^ 48)) := by
  have hmod : value.toNat % 2 ^ 48 < 2 ^ 48 := mod_lt _ (by decide)
  have hfirst : At (u48Wire value) 0 _ := prefix_append _ _
  have hsecond : At (u48Wire value) 2 _ := At.at_end (be16 _) _
  rw [u48FromWire, u16At_of_at hfirst, ok_bind, u32At_of_at hsecond, ok_bind,
    toNat_ofNat_of_lt' (by show _ < 65536; omega),
    UInt32.toNat_ofNat_of_lt' (by show _ < 4294967296; omega), div_add_mod']

theorem length_u48Wire (value : UInt64) : (u48Wire value).length = 6 := rfl

/-- What is read from the data of a TSIG record that `append_tsig_rr` wrote. -/
def parsedFields (owner algorithmName : DomainName) (fields : TsigRecordFields) : ParsedTsig where
  owner := owner
  algorithmName := algorithmName
  algorithm := (TsigAlgorithm.parse algorithmName.canonicalKey).toOption
  timeSigned := UInt64.ofNat (fields.timeSigned.toNat % 2 ^ 48)
  fudge := fields.fudge
  mac := fields.mac
  originalId := fields.originalId
  error := fields.error
  otherData := fields.otherData

theorem parseTsigRecord_tsigRdata (owner : DomainName) {algorithmName : DomainName} (start stop : ℕ)
    (hname : algorithmName.wireLen ≤ 255) (fields : TsigRecordFields)
    (hmac : fields.mac.length < 65536) (hother : fields.otherData.length < 65536) :
    parseTsigRecord ⟨owner, tsigRrType, dnsClassAny, tsigTtl, tsigRdata algorithmName fields, start,
      stop⟩ = .ok (parsedFields owner algorithmName.toAsciiLowercased fields) := by
  obtain ⟨timeSigned, fudge, mac, originalId, error, otherData⟩ := fields
  dsimp only at hmac hother
  set lowered := algorithmName.toAsciiLowercased
  have hfits : lowered.wireLen ≤ 255 := DomainName.wireLen_toAsciiLowercased algorithmName ▸ hname
  have hwire : (canonicalNameWire algorithmName).length = lowered.wireLen := lowered.length_toWire
  set rdata :=
    tsigRdata algorithmName ⟨timeSigned, fudge, mac, originalId, error, otherData⟩ with hrdata
  have hlen : rdata.length = lowered.wireLen + 16 + mac.length + otherData.length := by
    simp only [hrdata, tsigRdata, length_append, length_be16, length_u48Wire, hwire]
    omega
  -- each field stands behind the one written before it
  have hnameAt : At rdata 0 rdata := prefix_rfl
  nth_rewrite 2 [hrdata] at hnameAt
  simp only [tsigRdata, append_assoc] at hnameAt
  have htimeAt := hnameAt.right_of_append _
  rw [zero_add, hwire] at htimeAt
  have hfudgeAt : At rdata (lowered.wireLen + 6) _ := htimeAt.right_of_append (u48Wire timeSigned)
  have hmacLenAt : At rdata (lowered.wireLen + 8) _ := hfudgeAt.right_of_append (be16 fudge)
  have hmacAt : At rdata (lowered.wireLen + 10) _ := hmacLenAt.right_of_append (be16 _)
  have hidAt := hmacAt.right_of_append mac
  have herrorAt : At rdata (lowered.wireLen + 10 + mac.length + 2) _ :=
    hidAt.right_of_append (be16 originalId)
  have hotherLenAt : At rdata (lowered.wireLen + 10 + mac.length + 4) _ :=
    herrorAt.right_of_append (be16 error)
  have hotherAt : At rdata (lowered.wireLen + 10 + mac.length + 6) otherData :=
    hotherLenAt.right_of_append (be16 _)
  rw [parseTsigRecord, if_neg (by simp)]
  simp only [DomainName.parse_of_at hfits hnameAt.left_of_append, ofExcept_ok, ok_bind]
  rw [if_neg (by omega), slice_of_at htimeAt.left_of_append
    (show lowered.wireLen + 6 = _ from rfl) (by omega), ok_bind, u48FromWire_append, ok_bind,
    u16At_of_at hfudgeAt.left_of_append, ok_bind,
    u16At_of_at hmacLenAt.left_of_append, ok_bind, toNat_ofNat_of_lt' hmac,
    if_neg (by omega), slice_of_at hmacAt.left_of_append rfl (by omega), ok_bind,
    u16At_of_at hidAt.left_of_append, ok_bind, u16At_of_at herrorAt.left_of_append,
    ok_bind, u16At_of_at hotherLenAt.left_of_append, ok_bind,
    toNat_ofNat_of_lt' hother, if_neg (by omega), slice_of_at hotherAt rfl (by omega)]
  rfl

end BoronDns
