import BoronDns.CompressorSoundness
import BoronDns.Lib.Except
import BoronDns.TransferIdentity

/-!
The data of the types that have names in them: octets, then names, then octets. The
identity of such data is the data with its names in lower case. The code reads a
signature as if nothing stood behind the name of its signer, so the identity of a
real signature is its data as it is.
-/

namespace BoronDns

open Bytes PrefixCode List DomainName Option
open Except (bind_eq_ok_iff)

variable {rdata : Rdata} {offset : ℕ} {rrType : UInt16}

/-- A character string. -/
def stringWire (text : List UInt8) : List UInt8 := UInt8.ofNat text.length :: text

theorem stringWire_selfDelimiting :
    SelfDelimiting (fun text : List UInt8 => text.length ≤ 255) stringWire := by
  intro left right hleft hright x y h
  obtain ⟨hfirst, hrest⟩ := List.cons.inj h
  exact append_inj hrest (ofNat_inj_of_lt (by omega) (by omega) hfirst)

theorem toWire_selfDelimiting : SelfDelimiting (fun _ : DomainName => True) toWire := by
  intro left right _ _ x y h
  obtain ⟨hlabels, hrest⟩ := nameWire_selfDelimiting _ _ left.labels_valid right.labels_valid x y h
  exact ⟨DomainName.ext hlabels, hrest⟩

theorem skipCharacterString_eq_some_iff {next : ℕ} : skipCharacterString rdata offset = some next ↔
    ∃ text, text.length ≤ 255 ∧ At rdata offset (stringWire text) ∧ next = offset +
      (stringWire text).length := by
  unfold skipCharacterString
  constructor
  · intro h
    cases hget : rdata[offset]? with
    | none => simp [hget] at h
    | some len =>
      simp only [hget, ite_none_right_eq_some, some.injEq] at h
      obtain ⟨hfits, rfl⟩ := h
      have hlen := len.toNat_lt
      have htext : ((rdata.drop (offset + 1)).take len.toNat).length = len.toNat := by
        rw [length_take, length_drop]
        omega
      refine ⟨(rdata.drop (offset + 1)).take len.toNat, by omega, ?_, ?_⟩
      · rw [stringWire, htext, UInt8.ofNat_toNat]
        exact At.of_getElem?_drop hget <| take_prefix _ _
      · rw [stringWire, length_cons, htext]
        omega
  · rintro ⟨text, hfits, hat, rfl⟩
    have hbound := hat.bound (by simp [stringWire])
    have hlen : (UInt8.ofNat text.length).toNat = text.length := by
      rw [UInt8.toNat_ofNat']
      omega
    rw [hat.getElem?]
    simp only [stringWire, length_cons] at hbound ⊢
    rw [hlen, if_pos (by omega)]
    congr 1
    omega

/-- What stands in front of the names: a number of octets, or in NAPTR data four
octets and three strings. -/
inductive FrontFormat
  | octets (count : ℕ)
  | naptr

/-- The octets in front, the number of names, and the octets behind them when their
number is fixed. -/
structure NameFormat where
  front : FrontFormat
  count : ℕ
  back : Option ℕ

/-- The formats of the types that have names in their data; `signature` is what may
stand behind the signer of a SIG or RRSIG. -/
def nameFormat (signature : Option ℕ) (rrType : UInt16) : Option NameFormat :=
  if rrType ∈ [2, 3, 4, 5, 7, 8, 9, 12, 39] then some ⟨.octets 0, 1, some 0⟩
  else if rrType ∈ [14, 17, 58] then some ⟨.octets 0, 2, some 0⟩
  else if rrType = 6 then some ⟨.octets 0, 2, some 20⟩
  else if rrType ∈ [15, 18, 21, 36, 107] then some ⟨.octets 2, 1, some 0⟩
  else if rrType = 26 then some ⟨.octets 2, 2, some 0⟩
  else if rrType ∈ [24, 46] then some ⟨.octets 18, 1, signature⟩
  else if rrType ∈ [30, 47] then some ⟨.octets 0, 1, none⟩
  else if rrType = 33 then some ⟨.octets 6, 1, some 0⟩
  else if rrType = 35 then some ⟨.naptr, 1, some 0⟩
  else if rrType ∈ [64, 65] then some ⟨.octets 2, 1, none⟩
  else none

/-- The parts of data that has names in it. -/
structure NamedRdata where
  front : List UInt8
  names : List DomainName
  back : List UInt8

namespace NamedRdata

def wire (data : NamedRdata) : Rdata := data.front ++ data.names.flatMap toWire ++ data.back

def lower (data : NamedRdata) : NamedRdata :=
  { data with names := data.names.map toAsciiLowercased }

end NamedRdata

def FrontFormat.Holds : FrontFormat → List UInt8 → Prop
  | octets count, front => front.length = count
  | naptr, front =>
    ∃ (fixed : List UInt8) (strings : List (List UInt8)), fixed.length = 4 ∧ strings.length = 3 ∧
      (∀ text ∈ strings, text.length ≤ 255) ∧ front = fixed ++ strings.flatMap stringWire

structure NameFormat.Holds (format : NameFormat) (data : NamedRdata) : Prop where
  front : format.front.Holds data.front
  count : data.names.length = format.count
  fits : ∀ name ∈ data.names, name.wireLen ≤ 255
  back : ∀ count ∈ format.back, data.back.length = count

/-- Where the names start. -/
def FrontFormat.stop (rdata : Rdata) : FrontFormat → Option ℕ
  | octets count => some count
  | naptr => naptrReplacementOffset rdata

/-- The reading that all formats share. -/
def NameFormat.read (format : NameFormat) (rdata : Rdata) : Option (List UInt8) := do
  let fixed ← format.front.stop rdata
  canonicalFieldsAndNames rdata fixed format.count fun last =>
    format.back.all (last + · == rdata.length)

theorem canonicalDomainNameRdataIdentity_eq (rrType : UInt16) (rdata : Rdata) :
    canonicalDomainNameRdataIdentity rrType rdata = (nameFormat (some 0) rrType).bind
      (NameFormat.read · rdata) := by
  unfold canonicalDomainNameRdataIdentity nameFormat
  simp only [apply_ite (Option.bind · fun format => NameFormat.read format rdata)]
  rfl

section Front

variable {front : FrontFormat} {data : List UInt8}

theorem FrontFormat.Holds.stop (h : front.Holds data) (more : List UInt8) :
    front.stop (data ++ more) = some data.length := by
  cases front with
  | octets count => exact congrArg some (Eq.symm h)
  | naptr =>
    obtain ⟨fixed, strings, hfixed, hthree, hfits, rfl⟩ := h
    obtain ⟨first, second, third, rfl⟩ := length_eq_three.mp hthree
    simp only [forall_mem_cons, flatMap_cons, flatMap_nil, append_nil] at hfits ⊢
    have hat : At (fixed ++ (stringWire first ++ (stringWire second ++ stringWire third)) ++ more) 4
        (stringWire first ++ (stringWire second ++ stringWire third)) := by
      rw [append_assoc, ← hfixed]
      exact At.at_end_append ..
    have hsecond := hat.right_of_append _
    have hthird := hsecond.right_of_append _
    refine bind_eq_some_iff.mpr
      ⟨_, skipCharacterString_eq_some_iff.mpr ⟨first, hfits.1, hat.left_of_append, rfl⟩, ?_⟩
    refine bind_eq_some_iff.mpr
      ⟨_, skipCharacterString_eq_some_iff.mpr ⟨second, hfits.2.1, hsecond.left_of_append, rfl⟩, ?_⟩
    refine skipCharacterString_eq_some_iff.mpr ⟨third, hfits.2.2.1, hthird, ?_⟩
    simp only [length_append, hfixed, Nat.add_assoc]

theorem FrontFormat.holds_of_stop {fixed : ℕ} (h : front.stop rdata = some fixed)
    (hfixed : fixed ≤ rdata.length) : front.Holds (rdata.take fixed) := by
  cases front with
  | octets count =>
    obtain rfl := some.inj h
    exact length_take_of_le hfixed
  | naptr =>
    obtain ⟨_, hfirst, h⟩ := bind_eq_some_iff.mp h
    obtain ⟨_, hsecond, hthird⟩ := bind_eq_some_iff.mp h
    obtain ⟨first, hfirstFits, hfirstAt, rfl⟩ := skipCharacterString_eq_some_iff.mp hfirst
    obtain ⟨second, hsecondFits, hsecondAt, rfl⟩ := skipCharacterString_eq_some_iff.mp hsecond
    obtain ⟨third, hthirdFits, hthirdAt, rfl⟩ := skipCharacterString_eq_some_iff.mp hthird
    rw [Nat.add_assoc 4, ← length_append] at hthirdAt
    have hall := (hfirstAt.concat hsecondAt).concat hthirdAt
    refine ⟨rdata.take 4, [first, second, third], length_take_of_le (by omega), rfl, ?_, ?_⟩
    · simp [hfirstFits, hsecondFits, hthirdFits]
    · rw [Nat.add_assoc, Nat.add_assoc, take_add, ← length_append, ← length_append, ← append_assoc,
        hall.take_drop]
      simp

theorem FrontFormat.Holds.inj {other : List UInt8} (h : front.Holds data)
    (hother : front.Holds other) {x y : List UInt8} (heq : data ++ x = other ++ y) :
    data = other ∧ x = y := by
  cases front with
  | octets count => exact append_inj heq (Eq.trans h (Eq.symm hother))
  | naptr =>
    obtain ⟨fixed, strings, hfixed, hthree, hfits, rfl⟩ := h
    obtain ⟨fixed', strings', hfixed', hthree', hfits', rfl⟩ := hother
    rw [append_assoc, append_assoc] at heq
    obtain ⟨rfl, htail⟩ := append_inj heq (hfixed.trans hfixed'.symm)
    obtain ⟨rfl, rfl⟩ :=
      stringWire_selfDelimiting.flatMap_append_inj (hthree.trans hthree'.symm) hfits hfits' htail
    exact ⟨rfl, rfl⟩

end Front

theorem canonicalRdataNames_of_at {names : List DomainName}
    (hfits : ∀ name ∈ names, name.wireLen ≤ 255) (hat : At rdata offset (names.flatMap toWire)) :
    canonicalRdataNames rdata names.length offset =
      some ((names.map toAsciiLowercased).flatMap toWire,
        offset + (names.flatMap toWire).length) := by
  induction names generalizing offset with
  | nil => rfl
  | cons name rest ih =>
    have hrest :=
      ih (fun other hother => hfits other (mem_cons_of_mem _ hother)) (hat.right_of_append _)
    have hname : canonicalRdataName rdata offset =
        some (name.toAsciiLowercased.toWire, offset + name.toWire.length) := by
      rw [canonicalRdataName, parse_of_at (hfits name (mem_cons_self ..)) hat.left_of_append,
        name.length_toWire]
    rw [length_cons, canonicalRdataNames, hname]
    show (canonicalRdataNames _ _ _).bind _ = _
    rw [hrest]
    simp [Nat.add_assoc]

theorem exists_names {count last : ℕ} {names : List UInt8}
    (h : canonicalRdataNames rdata count offset = some (names, last)) :
    ∃ parsed : List DomainName, parsed.length = count ∧ (∀ name ∈ parsed, name.wireLen ≤ 255) ∧
      names = (parsed.map toAsciiLowercased).flatMap toWire := by
  induction count generalizing offset names last with
  | zero =>
    obtain ⟨rfl, -⟩ := Prod.mk.inj (some.inj h)
    exact ⟨[], rfl, by simp, rfl⟩
  | succ count ih =>
    obtain ⟨⟨first, next⟩, hfirst, h⟩ := bind_eq_some_iff.mp h
    obtain ⟨⟨rest, final⟩, hrest, h⟩ := bind_eq_some_iff.mp h
    obtain ⟨rfl, -⟩ := Prod.mk.inj (some.inj h)
    obtain ⟨parsed, rfl, hfits, rfl⟩ := ih hrest
    unfold canonicalRdataName at hfirst
    split at hfirst
    · cases hfirst
    next name consumed hparse =>
      obtain ⟨rfl, -⟩ := Prod.mk.inj (some.inj hfirst)
      exact ⟨name :: parsed, rfl, forall_mem_cons.mpr ⟨wireLen_of_parse hparse, hfits⟩, rfl⟩

namespace NameFormat

variable {format : NameFormat} {data : NamedRdata}

theorem Holds.lower (h : format.Holds data) : format.Holds data.lower := by
  refine ⟨h.front, (length_map _).trans h.count, ?_, h.back⟩
  intro name hname
  obtain ⟨original, horiginal, rfl⟩ := mem_map.mp hname
  rw [wireLen_toAsciiLowercased]
  exact h.fits original horiginal

/-- Data in a format up to its end is read when the end is as long as the format says. -/
theorem read_wire (h : { format with back := none }.Holds data) : format.read data.wire =
    if format.back.all (· == data.back.length) then some data.lower.wire else none := by
  have hwire : data.wire = data.front ++ (data.names.flatMap toWire ++ data.back) := append_assoc ..
  have hnames := canonicalRdataNames_of_at h.fits (hwire ▸ At.at_end_append ..)
  rw [show data.names.length = format.count from h.count] at hnames
  have hlen : data.wire.length =
      data.front.length + (data.names.flatMap toWire).length + data.back.length := by
    rw [hwire, length_append, length_append, Nat.add_assoc]
  have hback : format.back.all (fun count =>
      data.front.length + (data.names.flatMap toWire).length + count == data.wire.length) =
        format.back.all (· == data.back.length) := by
    cases format.back with
    | none => rfl
    | some count => simp [hlen]
  have hdrop : data.wire.drop (data.front.length + (data.names.flatMap toWire).length) =
      data.back := by
    rw [← length_append]
    exact drop_left
  have hstop : format.front.stop data.wire = some data.front.length := hwire ▸ h.front.stop _
  rw [read, hstop, bind_eq_bind, bind_some, canonicalFieldsAndNames, if_neg (by omega), hnames]
  show (if _ then _ else _) = _
  rw [hback, hdrop, hwire, take_left]
  rfl

theorem exists_of_read {identity : List UInt8} (h : format.read rdata = some identity) :
    ∃ data, format.Holds data ∧ identity = data.lower.wire := by
  obtain ⟨fixed, hfixed, h⟩ := bind_eq_some_iff.mp h
  unfold canonicalFieldsAndNames at h
  split at h
  · cases h
  obtain ⟨⟨names, last⟩, hnames, h⟩ := bind_eq_some_iff.mp h
  simp only [ite_none_right_eq_some, some.injEq] at h
  obtain ⟨hback, rfl⟩ := h
  obtain ⟨parsed, hcount, hfits, rfl⟩ := exists_names hnames
  refine ⟨⟨rdata.take fixed, parsed, rdata.drop last⟩,
    ⟨FrontFormat.holds_of_stop hfixed (by omega), hcount, hfits, fun count hsome => ?_⟩, rfl⟩
  rw [mem_def.mp hsome] at hback
  have hlast : last + count = rdata.length := by simpa using hback
  rw [length_drop]
  omega

theorem Holds.wire_inj {other : NamedRdata} (h : format.Holds data) (hother : format.Holds other)
    (heq : data.wire = other.wire) : data = other := by
  unfold NamedRdata.wire at heq
  rw [append_assoc, append_assoc] at heq
  obtain ⟨hfront, heq⟩ := h.front.inj hother.front heq
  obtain ⟨hnames, hback⟩ :=
    toWire_selfDelimiting.flatMap_append_inj (h.count.trans hother.count.symm)
    (fun _ _ => trivial) (fun _ _ => trivial) heq
  cases data
  cases other
  simp_all

end NameFormat

/-- SIG and RRSIG. -/
def signatureTypes : List UInt16 := [24, 46]

variable {format : NameFormat}

theorem canonicalRdataIdentity_wire (hformat : nameFormat (some 0) rrType = some format)
    (data : NamedRdata) (h : format.Holds data) :
    canonicalRdataIdentity rrType data.wire = data.lower.wire := by
  have hback : format.back.all (· == data.back.length) = true := by
    cases hcount : format.back with
    | none => rfl
    | some count => simp [h.back count hcount]
  rw [canonicalRdataIdentity, canonicalDomainNameRdataIdentity_eq, hformat]
  show (format.read data.wire).getD _ = _
  rw [NameFormat.read_wire ⟨h.front, h.count, h.fits, by simp⟩, if_pos hback]
  rfl

/-- The format the code reads is the type's own, but for what may stand behind a signer. -/
theorem canonicalRdataIdentity_of_holds (hformat : nameFormat none rrType = some format)
    {data : NamedRdata} (h : format.Holds data) : canonicalRdataIdentity rrType data.wire =
      if rrType ∈ signatureTypes ∧ data.back ≠ [] then data.wire else data.lower.wire := by
  by_cases hsignature : rrType ∈ signatureTypes
  · obtain rfl | rfl : rrType = 24 ∨ rrType = 46 := by simpa [signatureTypes] using hsignature
    all_goals
      obtain rfl := some.inj hformat
      rw [canonicalRdataIdentity, canonicalDomainNameRdataIdentity_eq]
      show (NameFormat.read ⟨.octets 18, 1, some 0⟩ data.wire).getD _ = _
      rw [NameFormat.read_wire h]
      by_cases hback : data.back = []
      · simp [hback]
      · simp [hback, hsignature, Ne.symm (mt length_eq_zero_iff.mp hback)]
  · rw [if_neg fun hsigned => hsignature hsigned.1]
    refine canonicalRdataIdentity_wire ?_ data h
    rw [← hformat]
    unfold nameFormat
    simp only [show rrType ∉ [24, 46] from hsignature, if_false]

theorem lower_lower (data : NamedRdata) : data.lower.lower = data.lower := by
  simp [NamedRdata.lower, toAsciiLowercased_idem]

theorem canonicalRdataIdentity_idem (rrType : UInt16) (rdata : Rdata) :
    canonicalRdataIdentity rrType (canonicalRdataIdentity rrType rdata) =
      canonicalRdataIdentity rrType rdata := by
  cases hid : canonicalDomainNameRdataIdentity rrType rdata with
  | none =>
    have hsame : canonicalRdataIdentity rrType rdata = rdata :=
      congrArg (Option.getD · rdata) hid
    rw [hsame, hsame]
  | some identity =>
    rw [show canonicalRdataIdentity rrType rdata = identity from congrArg
      (Option.getD · rdata) hid]
    rw [canonicalDomainNameRdataIdentity_eq] at hid
    obtain ⟨format, hformat, hread⟩ := bind_eq_some_iff.mp hid
    obtain ⟨data, hdata, rfl⟩ := NameFormat.exists_of_read hread
    rw [canonicalRdataIdentity_wire hformat _ hdata.lower, lower_lower]

section Accepted

/-- The check of an uncompressed name finds one of at most 255 octets. -/
theorem validateUncompressedDomainNameLoop_sound (rdata : Rdata) (offset pos totalLen len : ℕ)
    (hoffset : offset ≤ pos) (hroom : totalLen ≤ 255)
    (h : validateUncompressedDomainNameLoop rdata offset pos totalLen = .ok len) :
    ∃ labels, ValidLabels labels ∧ At rdata pos (labelsWire labels ++ [0]) ∧
      offset + len = pos + (labelsWire labels).length + 1 ∧ totalLen +
        (labelsWire labels).length ≤ 255 := by
  fun_induction validateUncompressedDomainNameLoop rdata offset pos totalLen with
  | case3 pos totalLen hget hplain =>
    obtain rfl := Except.ok.inj h
    refine ⟨[], by simp [ValidLabels], At.of_getElem?_drop hget ⟨_, rfl⟩, ?_, by simpa using hroom⟩
    simp only [labelsWire_nil, length_nil]
    omega
  | case6 pos totalLen byte hget hplain hzero hfits htotal ih =>
    obtain ⟨labels, hvalid, hat, hlen, hbound⟩ := ih (by omega) (by omega) h
    obtain ⟨label, hlabels, hlabelsAt, htext⟩ :=
      At.label_cons hget hzero (by omega) (by omega) hvalid hat
    refine ⟨label :: labels, hlabels, hlabelsAt, ?_, ?_⟩ <;>
      simp only [labelsWire_cons, length_append, length_labelWire, htext] <;> omega
  | _ => simp at h

variable {len : ℕ}

theorem exists_name_at (h : validateUncompressedDomainNameAt rdata offset = .ok len) :
    ∃ name : DomainName, At rdata offset name.toWire ∧ len = name.toWire.length ∧
      name.wireLen ≤ 255 := by
  obtain ⟨labels, hvalid, hat, hlen, hbound⟩ :=
    validateUncompressedDomainNameLoop_sound rdata offset offset 1 len le_rfl (by decide) h
  have hwire : (⟨labels, hvalid⟩ : DomainName).toWire.length = (labelsWire labels).length + 1 :=
    length_append ..
  refine ⟨⟨labels, hvalid⟩, hat, by omega, ?_⟩
  rw [← length_toWire]
  omega

variable {front : FrontFormat}

theorem exists_data_at {back : Option ℕ} (hstop : front.stop rdata = some offset)
    (h : validateUncompressedDomainNameAt rdata offset = .ok len)
    (hback : ∀ count ∈ back, offset + len + count = rdata.length) :
    ∃ data, (⟨front, 1, back⟩ : NameFormat).Holds data ∧ rdata = data.wire := by
  obtain ⟨name, hat, rfl, hfits⟩ := exists_name_at h
  have hbound := hat.bound (by simp [toWire])
  refine ⟨⟨rdata.take offset, [name], rdata.drop (offset + name.toWire.length)⟩,
    ⟨FrontFormat.holds_of_stop hstop (by omega), rfl, by simpa using hfits, fun count hcount => ?_⟩,
    ?_⟩
  · rw [length_drop, ← hback count hcount]
    omega
  · rw [NamedRdata.wire, flatMap_cons, flatMap_nil, append_nil]
    conv_lhs => rw [← take_append_drop (offset + name.toWire.length) rdata, take_add, hat.take_drop]

theorem exists_data_atEnd (hstop : front.stop rdata = some offset)
    (h : validateUncompressedDomainNameAtEnd rdata offset = .ok ()) :
    ∃ data, (⟨front, 1, some 0⟩ : NameFormat).Holds data ∧ rdata = data.wire := by
  obtain ⟨len, hlen, h⟩ := bind_eq_ok_iff.mp h
  split at h
  next hend => exact exists_data_at hstop hlen (by simpa using hend)
  · cases h

theorem skipTransferString_eq_ok_iff {next : ℕ} :
    skipTransferString rdata offset = .ok next ↔ skipCharacterString rdata offset = some next := by
  unfold skipTransferString
  split <;> simp_all

/-- The types whose data has names in it and is checked when it is received. -/
def checkedNameTypes : List UInt16 := [33, 35, 39, 46, 47, 64, 65]

theorem exists_data_of_validateKnownRdata {record : ResourceRecord} {format : NameFormat}
    (hformat : nameFormat none record.rrType = some format)
    (hchecked : record.rrType ∈ checkedNameTypes)
    (h : validateKnownRdata record = .ok ()) :
    ∃ data, format.Holds data ∧ record.rdata = data.wire := by
  obtain ⟨owner, rrType, cls, ttl, rdata⟩ := record
  simp only [checkedNameTypes, mem_cons, not_mem_nil, or_false] at hchecked
  rcases hchecked with rfl | rfl | rfl | rfl | rfl | rfl | rfl <;> obtain rfl := some.inj hformat
  · exact exists_data_atEnd rfl h
  · change validateNaptrRdata rdata = .ok () at h
    unfold validateNaptrRdata at h
    split at h
    · cases h
    obtain ⟨second, hfirst, h⟩ := bind_eq_ok_iff.mp h
    obtain ⟨third, hsecond, h⟩ := bind_eq_ok_iff.mp h
    obtain ⟨fixed, hthird, h⟩ := bind_eq_ok_iff.mp h
    rw [skipTransferString_eq_ok_iff] at hfirst hsecond hthird
    refine exists_data_atEnd (bind_eq_some_iff.mpr ⟨second, hfirst, ?_⟩) h
    exact bind_eq_some_iff.mpr ⟨third, hsecond, hthird⟩
  · change validateUncompressedDomainNameRdata rdata = .ok () at h
    refine exists_data_atEnd rfl ?_
    simp only [validateUncompressedDomainNameAtEnd, Nat.zero_add]
    exact h
  · obtain ⟨len, hlen, -⟩ := bind_eq_ok_iff.mp h
    exact exists_data_at rfl hlen (by simp)
  · obtain ⟨len, hlen, -⟩ := bind_eq_ok_iff.mp h
    exact exists_data_at rfl hlen (by simp)
  all_goals
    change validateSvcbLikeRdata rdata = .ok () at h
    unfold validateSvcbLikeRdata at h
    split at h
    · cases h
    obtain ⟨len, hlen, -⟩ := bind_eq_ok_iff.mp h
    exact exists_data_at rfl hlen (by simp)

end Accepted

/-- The identity is the data with its names in lower case unless a signature stands behind
a signer with capital letters, and two identities are the same when the data differ at most
in the case of their names unless a signature stands behind signers that differ so. The
identity of an identity is itself, and what passes the check of a type with a check is in
the format of the type. -/
theorem canonicalRdataIdentity_contract {format : NameFormat}
    (hformat : nameFormat none rrType = some format) :
    (∀ data, format.Holds data → (canonicalRdataIdentity rrType data.wire = data.lower.wire ↔
      (rrType ∈ signatureTypes → data.back = [] ∨ data.lower = data))) ∧
    (∀ left right, format.Holds left → format.Holds right →
      ((canonicalRdataIdentity rrType left.wire = canonicalRdataIdentity rrType right.wire ↔
          left.lower = right.lower) ↔
        (rrType ∈ signatureTypes → left.lower = right.lower → left.back = [] ∨ left = right))) ∧
    (∀ rdata, canonicalRdataIdentity rrType (canonicalRdataIdentity rrType rdata) =
      canonicalRdataIdentity rrType rdata) ∧
    ∀ record : ResourceRecord, record.rrType = rrType → rrType ∈ checkedNameTypes →
      validateKnownRdata record = .ok () → ∃ data, format.Holds data ∧
      record.rdata = data.wire := by
  have hidentity (data : NamedRdata) (h : format.Holds data) :=
    canonicalRdataIdentity_of_holds hformat h
  refine ⟨fun data h => ?_, fun left right hleft hright => ?_, canonicalRdataIdentity_idem rrType,
    ?_⟩
  · rw [hidentity data h]
    split
    next hsigned =>
      refine ⟨fun heq _ => Or.inr (h.wire_inj h.lower heq).symm, fun hread => ?_⟩
      exact congrArg NamedRdata.wire ((hread hsigned.1).resolve_left hsigned.2).symm
    next hplain =>
      exact ⟨fun _ htype => Or.inl (by simpa [htype] using hplain), fun _ => rfl⟩
  · have hback : left.lower = right.lower → left.back = right.back := congrArg NamedRdata.back
    have hlower : left.lower.wire = right.lower.wire ↔ left.lower = right.lower :=
      ⟨hleft.lower.wire_inj hright.lower, congrArg NamedRdata.wire⟩
    have hwire : left.wire = right.wire ↔ left = right :=
      ⟨hleft.wire_inj hright, congrArg NamedRdata.wire⟩
    have hsigned : left.lower.wire = right.wire → left.back = right.back :=
      fun heq => hleft.lower.wire_inj hright heq ▸ rfl
    have hsigner : left.wire = right.lower.wire → left.back = right.back :=
      fun heq => hleft.wire_inj hright.lower heq ▸ rfl
    rw [hidentity left hleft, hidentity right hright]
    by_cases htype : rrType ∈ signatureTypes
    · -- data that end differently have different identities and are different
      by_cases hl : left.back = [] <;> by_cases hr : right.back = [] <;> grind
    · simp [htype, hlower]
  · rintro record rfl hchecked haccepted
    exact exists_data_of_validateKnownRdata hformat hchecked haccepted

/-- A service at `A` is a service at `a`. -/
theorem canonicalRdataIdentity_service : nameFormat none 33 = some ⟨.octets 6, 1, some 0⟩ ∧
      canonicalRdataIdentity 33 [0, 1, 0, 2, 0, 80, 1, 65, 0] = [0, 1, 0, 2, 0, 80, 1, 97, 0] := by
  refine ⟨rfl, ((@canonicalRdataIdentity_contract 33 _ rfl).1
    ⟨[0, 1, 0, 2, 0, 80], [⟨[[65]], by decide⟩], []⟩ ?_).mpr ?_⟩
  · exact ⟨rfl, rfl, by decide, by decide⟩
  · exact fun h => absurd h (by decide)

/-- The signer `A` of a signature stays as it is when the signature stands behind it,
and a pointer in the data of a type without a check is followed. -/
theorem canonicalRdataIdentity_signer :
    let signed := List.replicate 18 0 ++ [1, 65, 0] ++ [7]
    validateKnownRdata ⟨.root, 46, 1, 0, signed⟩ = .ok () ∧
      canonicalRdataIdentity 46 signed = signed ∧
      canonicalRdataIdentity 46 (List.replicate 18 0 ++ [1, 65, 0]) =
      List.replicate 18 0 ++ [1, 97, 0] ∧
      validateKnownRdata ⟨.root, 18, 1, 0, [0, 0, 192, 0]⟩ = .ok () ∧
      canonicalRdataIdentity 18 [0, 0, 192, 0] = canonicalRdataIdentity 18 [0, 0, 0] := by
  decide +kernel

end BoronDns
