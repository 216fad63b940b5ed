import BoronDns.Name
import BoronDns.Lib.Bytes

/-!
Names on the wire. A name is a run of length-prefixed labels closed by a zero
octet, and in a message it may be closed by a pointer to an earlier name
instead. The parser follows such pointers; `WireNameAt` says what it reads, and
the parser accepts exactly what it says as long as the name fits in 255 octets
and no more than 128 pointers are followed.
-/

namespace BoronDns

open Bytes List

variable {pos pointers next : ℕ} {packet : List UInt8} {labels : List Label} {byte : UInt8}

inductive DnsParseError
  | shortHeader
  | formErr
  deriving DecidableEq, Repr

variable (label : Label)

def labelWire : List UInt8 := UInt8.ofNat label.length :: label

def labelsWire (labels : List Label) : List UInt8 := labels.flatMap labelWire

@[simp] theorem length_labelWire : (labelWire label).length = 1 + label.length := by
  simp [labelWire, Nat.add_comm]

@[simp] theorem labelsWire_nil : labelsWire [] = [] := rfl

@[simp] theorem labelsWire_cons (labels : List Label) :
    labelsWire (label :: labels) = labelWire label ++ labelsWire labels := rfl

theorem labelsWire_append (left right : List Label) :
    labelsWire (left ++ right) = labelsWire left ++ labelsWire right := by
  simp [labelsWire]

def ValidLabels (labels : List Label) : Prop :=
  ∀ label ∈ labels, 0 < label.length ∧ label.length ≤ 63

namespace DomainName

variable (name : DomainName)

def toWire : List UInt8 := labelsWire name.labels ++ [0]

theorem length_labelsWire_add_one : (labelsWire name.labels).length + 1 = name.wireLen := by
  have key : ∀ labels : List Label, (labelsWire labels).length =
      (labels.map fun label => 1 + label.length).sum := by
    intro labels
    induction labels with
    | nil => rfl
    | cons label rest ih => simp [ih]
  simp [wireLen, key]

theorem length_toWire : name.toWire.length = name.wireLen := by
  simpa [toWire] using name.length_labelsWire_add_one

theorem wireLen_toAsciiLowercased : name.toAsciiLowercased.wireLen = name.wireLen := by
  simp [wireLen, toAsciiLowercased, Function.comp_def]

theorem wireLen_congr {left right : DomainName} (h : left.lowerLabels = right.lowerLabels) :
    left.wireLen = right.wireLen := by
  rw [← left.wireLen_toAsciiLowercased, ← right.wireLen_toAsciiLowercased,
    show left.toAsciiLowercased = right.toAsciiLowercased from DomainName.ext h]

def pushLabel (label : Label) (h : 0 < label.length ∧ label.length ≤ 63) : DomainName :=
  ⟨name.labels ++ [label], by
    intro other hother
    rcases mem_append.mp hother with hmem | hmem
    · exact name.labels_valid other hmem
    · rw [mem_singleton.mp hmem]
      exact h⟩

end DomainName

def maxCompressedNamePointers : ℕ := 128

def dnsHeaderLen : ℕ := 12

/-- The offset in a compression pointer. -/
def pointerTarget (high low : UInt8) : ℕ := ((high &&& 0x3f).toNat <<< 8) ||| low.toNat

private theorem parsed_label_valid (packet : List UInt8) (pos : ℕ) (len : UInt8) (hzero : len ≠ 0)
    (h : ¬ (63 < len.toNat ∨ packet.length < pos + len.toNat)) :
    0 < ((packet.drop pos).take len.toNat).length ∧
      ((packet.drop pos).take len.toNat).length ≤ 63 := by
  have hne : len.toNat ≠ 0 := fun h0 => hzero (UInt8.toNat_inj.mp h0)
  rw [length_take, length_drop]
  omega

/-- The loop of `parse_with_reusable_labels`. -/
def parseLoop (packet : List UInt8) (offset pos : ℕ) (name : DomainName) (consumed : Option ℕ)
    (followedPointers totalLen : ℕ) (asciiLowercase : Bool) :
    Except DnsParseError (DomainName × ℕ × Bool) :=
  match packet[pos]? with
  | none => .error .formErr
  | some len =>
    if len &&& 0xc0 = 0xc0 then
      match packet[pos + 1]? with
      | none => .error .formErr
      | some next =>
        if pos ≤ pointerTarget len next then
          .error .formErr
        else if hpointers : maxCompressedNamePointers ≤ followedPointers then
          .error .formErr
        else
          parseLoop packet offset (pointerTarget len next) name
            (some (consumed.getD (pos + 2 - offset))) (followedPointers + 1) totalLen
            asciiLowercase
    else if len &&& 0xc0 = 0 then
      if hzero : len = 0 then
        .ok (name, consumed.getD (pos + 1 - offset), asciiLowercase)
      else if h : 63 < len.toNat ∨ packet.length < pos + 1 + len.toNat then
        .error .formErr
      else if htotal : 255 < totalLen + (1 + len.toNat) then
        .error .formErr
      else
        let label := (packet.drop (pos + 1)).take len.toNat
        parseLoop packet offset (pos + 1 + len.toNat)
          (name.pushLabel label (parsed_label_valid packet (pos + 1) len hzero h)) consumed
          followedPointers (totalLen + (1 + len.toNat))
          (asciiLowercase && label.all fun byte => toAsciiLowercase byte == byte)
    else
      .error .formErr
  termination_by maxCompressedNamePointers - followedPointers + (256 - totalLen)
  decreasing_by
    · omega
    · omega

namespace DomainName

def parseWithAsciiLowercase (packet : List UInt8) (offset : ℕ) :
    Except DnsParseError (DomainName × ℕ × Bool) :=
  parseLoop packet offset offset root none 0 1 true

def parse (packet : List UInt8) (offset : ℕ) : Except DnsParseError (DomainName × ℕ) :=
  (parseWithAsciiLowercase packet offset).map fun parsed => (parsed.1, parsed.2.1)

end DomainName

/-- `packet` holds the name `labels` at `pos`: reading it follows `pointers`
pointers, and the bytes it takes in place end at `next`. -/
inductive WireNameAt (packet : List UInt8) : ℕ → List Label → ℕ → ℕ → Prop
  | root {pos : ℕ} (h : At packet pos [0]) : WireNameAt packet pos [] 0 (pos + 1)
  | label {pos pointers next : ℕ} {label : Label} {labels : List Label}
      (h : At packet pos (labelWire label)) (hvalid : 0 < label.length ∧ label.length ≤ 63)
      (rest : WireNameAt packet (pos + 1 + label.length) labels pointers next) :
      WireNameAt packet pos (label :: labels) pointers next
  | pointer {pos pointers next : ℕ} {high low : UInt8} {labels : List Label}
      (h : At packet pos [high, low]) (hhigh : high &&& 0xc0 = 0xc0)
      (hback : pointerTarget high low < pos)
      (rest : WireNameAt packet (pointerTarget high low) labels pointers next) :
      WireNameAt packet pos labels (pointers + 1) (pos + 2)

variable (h : WireNameAt packet pos labels pointers next)

theorem WireNameAt.append (h : WireNameAt packet pos labels pointers next) (more : List UInt8) :
    WireNameAt (packet ++ more) pos labels pointers next := by
  induction h with
  | root h =>
    have hlen := h.bound (by simp)
    exact .root (h.append (by omega) more)
  | label h hvalid _ ih =>
    have hlen := h.bound (by simp [labelWire])
    exact .label (h.append (by omega) more) hvalid ih
  | pointer h hhigh hback _ ih =>
    have hlen := h.bound (by simp)
    exact .pointer (h.append (by omega) more) hhigh hback ih

private theorem and_c0_key :
    ∀ n : Fin 256, (UInt8.ofNat n &&& 0xc0 = 0xc0 ↔ 192 ≤ n.val) ∧
      (UInt8.ofNat n &&& 0xc0 = 0 ↔ n.val < 64) := by
  decide +kernel

theorem and_c0_eq_c0_iff (byte : UInt8) : byte &&& 0xc0 = 0xc0 ↔ 192 ≤ byte.toNat := by
  have h := (and_c0_key ⟨byte.toNat, byte.toNat_lt⟩).1
  simpa using h

theorem and_c0_eq_zero_iff (byte : UInt8) : byte &&& 0xc0 = 0 ↔ byte.toNat < 64 := by
  have h := (and_c0_key ⟨byte.toNat, byte.toNat_lt⟩).2
  simpa using h

def labelsLowercase (labels : List Label) : Bool :=
  labels.all fun label => label.all fun byte => toAsciiLowercase byte == byte

theorem toNat_ofNat_length {label : Label} (h : label.length ≤ 63) :
    (UInt8.ofNat label.length).toNat = label.length := by
  rw [UInt8.toNat_ofNat']
  omega

theorem and_c0_ofNat_length {label : Label} (h : label.length ≤ 63) :
    UInt8.ofNat label.length &&& 0xc0 = 0 := by
  rw [and_c0_eq_zero_iff, toNat_ofNat_length h]
  omega

/-- The parser reads every name of the right size that stands in the packet. -/
theorem parseLoop_of_wireNameAt (h : WireNameAt packet pos labels pointers next) (offset : ℕ) :
    ∀ (name : DomainName) (consumed : Option ℕ) (followed total : ℕ) (lower : Bool),
      followed + pointers ≤ 128 → total + (labelsWire labels).length ≤ 255 →
      ∃ result : DomainName, result.labels = name.labels ++ labels ∧
        parseLoop packet offset pos name consumed followed total lower =
          .ok (result, consumed.getD (next - offset), lower && labelsLowercase labels) := by
  induction h with
  | root h =>
    intro name consumed followed total lower _ _
    refine ⟨name, by simp, ?_⟩
    rw [parseLoop, h.getElem?]
    simp [labelsLowercase]
  | @label pos pointers next label labels h hvalid rest ih =>
    intro name consumed followed total lower hpointers htotal
    have hbound := h.bound (by simp [labelWire])
    have hlen := toNat_ofNat_length hvalid.2
    have hbyte : (UInt8.ofNat label.length) ≠ 0 := by
      intro h0
      have hzero := congrArg UInt8.toNat h0
      rw [hlen, UInt8.toNat_zero] at hzero
      omega
    have hplain := and_c0_ofNat_length hvalid.2
    have htext : (packet.drop (pos + 1)).take label.length = label :=
      (At.right_of_append [UInt8.ofNat label.length] h).take_drop
    simp only [length_labelWire, labelsWire_cons, length_append] at hbound htotal
    obtain ⟨result, hresult, hparse⟩ := ih (name.pushLabel label hvalid) consumed followed
      (total + (1 + label.length)) (lower && label.all fun byte => toAsciiLowercase byte == byte)
      hpointers (by omega)
    refine ⟨result, by simpa [DomainName.pushLabel] using hresult, ?_⟩
    rw [parseLoop, h.getElem?]
    have hfits : ¬ (63 < label.length ∨ packet.length < pos + 1 + label.length) := by omega
    have hroom : ¬ 255 < total + (1 + label.length) := by omega
    simp only [hplain, hbyte, hlen, hfits, hroom, if_true, dif_neg, htext, not_false_iff]
    rw [hparse]
    simp [labelsLowercase, Bool.and_assoc]
  | @pointer pos pointers next high low labels h hhigh hback rest ih =>
    intro name consumed followed total lower hpointers htotal
    obtain ⟨result, hresult, hparse⟩ := ih name (some (consumed.getD (pos + 2 - offset)))
      (followed + 1) total lower (by omega) htotal
    refine ⟨result, hresult, ?_⟩
    have hsecond : packet[pos + 1]? = some low :=
      (At.right_of_append [high] h).getElem?
    have hfirst : packet[pos]? = some high := h.getElem?
    have hfollow : ¬ maxCompressedNamePointers ≤ followed := by
      simp only [maxCompressedNamePointers]
      omega
    rw [parseLoop, hfirst]
    simp only [hhigh, hsecond, if_true, Nat.not_le.mpr hback, if_false, hfollow, dif_neg,
      not_false_iff]
    rw [hparse]
    simp

theorem DomainName.parse_of_wireNameAt (h : WireNameAt packet pos labels pointers next)
    (hpointers : pointers ≤ 128) (hlen : (labelsWire labels).length + 1 ≤ 255) :
    ∃ name : DomainName, name.labels = labels ∧
      DomainName.parse packet pos = .ok (name, next - pos) := by
  obtain ⟨name, hname, hparse⟩ := parseLoop_of_wireNameAt h pos DomainName.root none 0 1 true
    (by omega) (by omega)
  refine ⟨name, by simpa [DomainName.root] using hname, ?_⟩
  simp [parse, parseWithAsciiLowercase, hparse, Except.map]

variable {bytes : List UInt8}

theorem At.of_getElem?_drop {chunk : List UInt8} (hbyte : bytes[pos]? = some byte)
    (hchunk : At bytes (pos + 1) chunk) : At bytes pos (byte :: chunk) := by
  obtain ⟨rest, hrest⟩ := hchunk
  refine ⟨rest, ?_⟩
  rw [drop_eq_getElem?_toList_append, hbyte, ← hrest]
  rfl

/-- What the parser returns stands in the packet, follows at most 128 pointers and fits in 255
octets. -/
theorem parseLoop_wireNameAt (packet : List UInt8) (offset pos : ℕ) (name : DomainName)
    (consumed : Option ℕ) (followed total : ℕ) (lower : Bool) (result : DomainName × ℕ × Bool)
    (hfollowed : followed ≤ 128) (htotal : total ≤ 255)
    (h : parseLoop packet offset pos name consumed followed total lower = .ok result) :
    ∃ labels pointers next, WireNameAt packet pos labels pointers next ∧ followed + pointers ≤ 128 ∧
      total + (labelsWire labels).length ≤ 255 := by
  fun_induction parseLoop packet offset pos name consumed followed total lower with
  | case5 pos name consumed followed total lower len hget hpointer next hnext hback hfollow ih =>
    have hroom : followed + 1 ≤ 128 := not_le.mp hfollow
    obtain ⟨labels, pointers, stop, hname, hcount, hfits⟩ := ih hroom htotal h
    have hat : At packet pos [len, next] :=
      At.of_getElem?_drop hget (At.of_getElem?_drop hnext nil_prefix)
    exact ⟨labels, pointers + 1, pos + 2, .pointer hat hpointer (not_le.mp hback) hname, by omega,
      hfits⟩
  | case6 pos name consumed followed total lower hget hplain =>
    exact ⟨[], 0, pos + 1, .root (At.of_getElem?_drop hget nil_prefix), hfollowed, htotal⟩
  | case9 pos name consumed followed total lower len hget hpointer hplain hzero hfits
      hmax label ih =>
    obtain ⟨labels, pointers, stop, hname, hcount, hrest⟩ := ih hfollowed (by omega) h
    have hlabel : label.length = len.toNat := by
      simp only [label, length_take, length_drop]
      omega
    have hne : len.toNat ≠ 0 := fun h0 => hzero (UInt8.toNat_inj.mp h0)
    have hat : At packet pos (labelWire label) := by
      rw [labelWire, hlabel, UInt8.ofNat_toNat]
      exact At.of_getElem?_drop hget <| take_prefix _ _
    refine ⟨label :: labels, pointers, stop, .label hat (by omega) (hlabel ▸ hname), hcount, ?_⟩
    rw [labelsWire_cons, length_append, length_labelWire]
    omega
  | _ => simp at h

theorem WireNameAt.lt (h : WireNameAt packet pos labels pointers next) : pos < next := by
  induction h with
  | root => omega
  | label _ _ _ ih => omega
  | pointer => omega

theorem WireNameAt.next_le (h : WireNameAt packet pos labels pointers next) :
    next ≤ packet.length := by
  induction h with
  | root h => exact h.bound (by simp)
  | label _ _ _ ih => exact ih
  | pointer h => exact h.bound (by simp)

variable {name : DomainName} {consumed : ℕ}

/-- The parser reads exactly the names that stand in the packet, follow at most 128 pointers and
fit in 255 octets, and its lowercase flag is truthful. -/
theorem DomainName.parseWithAsciiLowercase_spec {lower : Bool}
    (h : DomainName.parseWithAsciiLowercase packet pos = .ok (name, consumed, lower)) :
    lower = labelsLowercase name.labels ∧ ∃ pointers ≤ 128,
      WireNameAt packet pos name.labels pointers (pos + consumed) ∧
      (labelsWire name.labels).length + 1 ≤ 255 := by
  obtain ⟨labels, pointers, next, hname, hcount, hfits⟩ :=
    parseLoop_wireNameAt packet pos pos root none 0 1 true _ (by decide) (by decide) h
  obtain ⟨result, hlabels, hparse⟩ :=
    parseLoop_of_wireNameAt hname pos root none 0 1 true hcount hfits
  obtain ⟨rfl, hrest⟩ := Prod.mk.inj (Except.ok.inj (h.symm.trans hparse))
  obtain ⟨rfl, rfl⟩ := Prod.mk.inj hrest
  obtain rfl : name.labels = labels := hlabels
  have hlt := hname.lt
  refine ⟨rfl, pointers, by omega, ?_, by omega⟩
  rw [Option.getD_none, Nat.add_sub_cancel' hlt.le]
  exact hname

theorem DomainName.wireNameAt_of_parse (h : DomainName.parse packet pos = .ok (name, consumed)) :
    ∃ pointers ≤ 128, WireNameAt packet pos name.labels pointers (pos + consumed) ∧
      (labelsWire name.labels).length + 1 ≤ 255 := by
  unfold parse at h
  cases hparsed : parseWithAsciiLowercase packet pos with
  | error e =>
    rw [hparsed] at h
    cases h
  | ok parsed =>
    rw [hparsed] at h
    obtain ⟨rfl, rfl⟩ := Prod.mk.inj (Except.ok.inj h)
    exact (parseWithAsciiLowercase_spec hparsed).2

theorem DomainName.wireLen_of_parse {len : ℕ}
    (h : DomainName.parse packet pos = .ok (name, len)) : name.wireLen ≤ 255 := by
  obtain ⟨-, -, -, hfits⟩ := wireNameAt_of_parse h
  rwa [name.length_labelsWire_add_one] at hfits

/-- What follows the packet does not change how a name in it is read. -/
theorem DomainName.parse_append {len : ℕ} (h : DomainName.parse packet pos = .ok (name, len))
    (more : List UInt8) : DomainName.parse (packet ++ more) pos = .ok (name, len) := by
  obtain ⟨pointers, hpointers, hname, hfits⟩ := wireNameAt_of_parse h
  obtain ⟨result, hlabels, hparse⟩ := parse_of_wireNameAt (hname.append more) hpointers hfits
  rw [hparse, DomainName.ext hlabels, Nat.add_sub_cancel_left]

def wireNameLenAtLoop (bytes : List UInt8) (offset cursor : ℕ) : Option ℕ :=
  match h : bytes[cursor]? with
  | none => none
  | some len =>
    if len &&& 0xc0 ≠ 0 ∨ 63 < len.toNat then
      none
    else if len = 0 then
      some (cursor + 1 - offset)
    else if bytes.length < cursor + 1 + len.toNat then
      none
    else
      wireNameLenAtLoop bytes offset (cursor + 1 + len.toNat)
  termination_by bytes.length - cursor
  decreasing_by
    have := (List.getElem?_eq_some_iff.mp h).1
    omega

/-- The length of the uncompressed name at `offset`, when one stands there. -/
def wireNameLenAt (bytes : List UInt8) (offset : ℕ) : Option ℕ :=
  wireNameLenAtLoop bytes offset offset

/-- A length octet, the label it counts and more labels are the labels with one in front. -/
theorem At.label_cons (hget : bytes[pos]? = some byte) (hzero : byte ≠ 0)
    (hshort : byte.toNat ≤ 63) (hfits : pos + 1 + byte.toNat ≤ bytes.length)
    (hvalid : ValidLabels labels)
    (hat : At bytes (pos + 1 + byte.toNat) (labelsWire labels ++ [0])) :
    ∃ label, ValidLabels (label :: labels) ∧ At bytes pos (labelsWire (label :: labels) ++ [0]) ∧
      label.length = byte.toNat := by
  have hne : byte.toNat ≠ 0 := fun h0 => hzero (UInt8.toNat_inj.mp h0)
  have htext : ((bytes.drop (pos + 1)).take byte.toNat).length = byte.toNat := by
    rw [length_take, length_drop]
    omega
  refine ⟨(bytes.drop (pos + 1)).take byte.toNat, ?_, ?_, htext⟩
  · intro label hmem
    rcases mem_cons.mp hmem with rfl | hmem
    · omega
    · exact hvalid label hmem
  · rw [labelsWire_cons, labelWire, htext, UInt8.ofNat_toNat]
    obtain ⟨rest, hrest⟩ := hat
    have hnext : At bytes (pos + 1)
        ((bytes.drop (pos + 1)).take byte.toNat ++ (labelsWire labels ++ [0])) := by
      refine ⟨rest, ?_⟩
      rw [append_assoc, hrest, ← drop_drop (i := byte.toNat) (j := pos + 1), take_append_drop]
    simpa using At.of_getElem?_drop hget hnext

theorem wireNameLenAtLoop_sound (bytes : List UInt8) (offset cursor len : ℕ)
    (hcursor : offset ≤ cursor) (h : wireNameLenAtLoop bytes offset cursor = some len) :
    ∃ labels : List Label, ValidLabels labels ∧ At bytes cursor (labelsWire labels ++ [0]) ∧
      offset + len = cursor + (labelsWire labels).length + 1 := by
  fun_induction wireNameLenAtLoop bytes offset cursor with
  | case3 cursor hget =>
    cases h
    refine ⟨[], by simp [ValidLabels], At.of_getElem?_drop hget ⟨_, rfl⟩, ?_⟩
    simp only [labelsWire_nil, length_nil]
    omega
  | case5 cursor byte hget hplain hzero hfits ih =>
    obtain ⟨labels, hvalid, hat, hlen⟩ := ih (by omega) h
    have hshort : byte.toNat ≤ 63 := by
      by_contra hlong
      exact hplain (Or.inr (by omega))
    obtain ⟨label, hlabels, hlabelsAt, htext⟩ :=
      At.label_cons hget hzero hshort (by omega) hvalid hat
    refine ⟨label :: labels, hlabels, hlabelsAt, ?_⟩
    simp only [labelsWire_cons, length_append, length_labelWire, htext]
    omega
  | _ => simp at h

theorem wireNameLenAt_sound {offset len : ℕ} (h : wireNameLenAt bytes offset = some len) :
    ∃ labels : List Label, ValidLabels labels ∧ At bytes offset (labelsWire labels ++ [0]) ∧
      len = (labelsWire labels).length + 1 := by
  obtain ⟨labels, hvalid, hat, hlen⟩ := wireNameLenAtLoop_sound bytes offset offset len le_rfl h
  exact ⟨labels, hvalid, hat, by omega⟩

end BoronDns
