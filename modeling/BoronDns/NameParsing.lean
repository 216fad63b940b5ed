import BoronDns.CompressorSoundness

/-!
The readers of names on the wire. Beside the parser there is a scanner, which
counts labels and compares them with an expected name without storing them, and
a parser that writes over the labels of an earlier name. The three loops walk a
packet in the same way, so they accept the same bytes and agree on what they
report.
-/

namespace BoronDns

open Bytes List

structure CompressedNameScan where
  consumed : ℕ
  labelCount : ℕ
  matchesExpected : Bool
  deriving DecidableEq, Repr

variable (reuse : Bool) (packet : List UInt8) (offset : ℕ) (expected : Option DomainName)
  (labels : List Label)

/-- Whether a label is the one expected at its place. -/
def matchesLabel (index : ℕ) (label : Label) : Bool :=
  expected.elim true fun name => name.labels[index]?.any fun other => eqIgnoreAsciiCase other label

/-- Whether the name ends where it is expected to. -/
def matchesCount (labelCount : ℕ) : Bool :=
  expected.elim true fun name => labelCount == name.labels.length

def scanNameLoop (packet : List UInt8) (expected : Option DomainName) (offset pos : ℕ)
    (consumed : Option ℕ) (followedPointers totalLen labelCount : ℕ) (matchesExpected : Bool) :
    Except DnsParseError CompressedNameScan :=
  match packet[pos]? with
  | none => .error .formErr
  | some len =>
    if len &&& 0xc0 = 0xc0 then
      match packet[pos + 1]? with
      | none => .error .formErr
      | some next =>
        if pos ≤ pointerTarget len next then
          .error .formErr
        else if hpointers : maxCompressedNamePointers ≤ followedPointers then
          .error .formErr
        else
          scanNameLoop packet expected offset (pointerTarget len next)
            (some (consumed.getD (pos + 2 - offset))) (followedPointers + 1) totalLen labelCount
            matchesExpected
    else if len &&& 0xc0 = 0 then
      if len = 0 then
        .ok ⟨consumed.getD (pos + 1 - offset), labelCount,
          matchesExpected && matchesCount expected labelCount⟩
      else if 63 < len.toNat ∨ packet.length < pos + 1 + len.toNat then
        .error .formErr
      else if htotal : 255 < totalLen + (1 + len.toNat) then
        .error .formErr
      else
        let label := (packet.drop (pos + 1)).take len.toNat
        scanNameLoop packet expected offset (pos + 1 + len.toNat) consumed followedPointers
          (totalLen + (1 + len.toNat)) (labelCount + 1)
          (matchesExpected && matchesLabel expected labelCount label)
    else
      .error .formErr
  termination_by maxCompressedNamePointers - followedPointers + (256 - totalLen)
  decreasing_by
    · omega
    · omega

def scanCompressedName : Except DnsParseError CompressedNameScan :=
  scanNameLoop packet expected offset offset none 0 1 0 true

/-- A label goes over an old one while there is one, and behind them otherwise. -/
def putLabel (labelCount : ℕ) (label : Label) : List Label :=
  if reuse = true ∧ labelCount < labels.length then labels.set labelCount label
  else labels ++ [label]

/-- The loop of `parse_with_reusable_labels` over a buffer of labels. -/
def parseLabelsLoop (reuse : Bool) (packet : List UInt8) (offset pos : ℕ) (labels : List Label)
    (labelCount : ℕ) (consumed : Option ℕ) (followedPointers totalLen : ℕ)
    (asciiLowercase : Bool) : Except DnsParseError (List Label × ℕ × Bool) :=
  match packet[pos]? with
  | none => .error .formErr
  | some len =>
    if len &&& 0xc0 = 0xc0 then
      match packet[pos + 1]? with
      | none => .error .formErr
      | some next =>
        if pos ≤ pointerTarget len next then
          .error .formErr
        else if hpointers : maxCompressedNamePointers ≤ followedPointers then
          .error .formErr
        else
          parseLabelsLoop reuse packet offset (pointerTarget len next) labels labelCount
            (some (consumed.getD (pos + 2 - offset))) (followedPointers + 1) totalLen
            asciiLowercase
    else if len &&& 0xc0 = 0 then
      if len = 0 then
        .ok (if reuse then labels.take labelCount else labels, consumed.getD (pos + 1 - offset),
          asciiLowercase)
      else if 63 < len.toNat ∨ packet.length < pos + 1 + len.toNat then
        .error .formErr
      else if htotal : 255 < totalLen + (1 + len.toNat) then
        .error .formErr
      else
        let label := (packet.drop (pos + 1)).take len.toNat
        parseLabelsLoop reuse packet offset (pos + 1 + len.toNat)
          (putLabel reuse labels labelCount label) (labelCount + 1) consumed followedPointers
          (totalLen + (1 + len.toNat))
          (asciiLowercase && label.all fun byte => toAsciiLowercase byte == byte)
    else
      .error .formErr
  termination_by maxCompressedNamePointers - followedPointers + (256 - totalLen)
  decreasing_by
    · omega
    · omega

def parseWithReusableLabels : Except DnsParseError (List Label × ℕ × Bool) :=
  parseLabelsLoop reuse packet offset offset labels 0 none 0 1 true

/-- The comparison the scanner keeps: what was read so far begins the expected
name. -/
def matchesSoFar : Bool :=
  expected.elim true fun name => decide (labels.map lowerLabel <+: name.lowerLabels)

def matchesName : Bool :=
  expected.elim true fun name => decide (labels.map lowerLabel = name.lowerLabels)

theorem matchesSoFar_snoc (label : Label) :
    (matchesSoFar expected labels && matchesLabel expected labels.length label) =
      matchesSoFar expected (labels ++ [label]) := by
  cases expected with
  | none => rfl
  | some name =>
    simp only [matchesSoFar, matchesLabel, Option.elim_some]
    rw [Bool.eq_iff_iff, Bool.and_eq_true, decide_eq_true_iff, decide_eq_true_iff, map_append,
      map_singleton]
    have hany : (name.labels[labels.length]?.any fun other => eqIgnoreAsciiCase other label) =
        true ↔ name.lowerLabels[labels.length]? = some (lowerLabel label) := by
      rw [DomainName.lowerLabels, List.getElem?_map]
      cases name.labels[labels.length]? with
      | none => simp
      | some other => simp
    rw [hany]
    constructor
    · rintro ⟨⟨rest, hrest⟩, hnext⟩
      rw [← hrest, List.getElem?_append_right (by simp), length_map, Nat.sub_self] at hnext
      obtain ⟨tail, rfl⟩ : ∃ tail, rest = lowerLabel label :: tail := by
        cases rest with
        | nil => simp at hnext
        | cons first tail => exact ⟨tail, by simpa using hnext⟩
      exact ⟨tail, by rw [← hrest, append_assoc, singleton_append]⟩
    · rintro ⟨rest, hrest⟩
      rw [append_assoc, singleton_append] at hrest
      refine ⟨⟨_, hrest⟩, ?_⟩
      rw [← hrest, List.getElem?_append_right (by simp), length_map, Nat.sub_self]
      rfl

theorem matchesSoFar_count :
    (matchesSoFar expected labels && matchesCount expected labels.length) =
      matchesName expected labels := by
  cases expected with
  | none => rfl
  | some name =>
    simp only [matchesSoFar, matchesCount, matchesName, Option.elim_some]
    rw [Bool.eq_iff_iff, Bool.and_eq_true, decide_eq_true_iff, decide_eq_true_iff, beq_iff_eq]
    have hlen : (labels.map lowerLabel).length = labels.length := length_map _
    have hname : name.lowerLabels.length = name.labels.length := length_map _
    constructor
    · rintro ⟨hfront, hcount⟩
      exact hfront.eq_of_length (by omega)
    · intro heq
      refine ⟨heq ▸ prefix_rfl, ?_⟩
      rw [← hlen, heq, hname]

/-- The scanner reports of every name what the parser reads of it. -/
theorem scanNameLoop_eq (packet : List UInt8) (offset pos : ℕ) (name : DomainName)
    (consumed : Option ℕ) (followed total : ℕ) (lower : Bool) :
    scanNameLoop packet expected offset pos consumed followed total name.labels.length
        (matchesSoFar expected name.labels) =
      (parseLoop packet offset pos name consumed followed total lower).map fun parsed =>
        ⟨parsed.2.1, parsed.1.labels.length, matchesName expected parsed.1.labels⟩ := by
  fun_induction parseLoop packet offset pos name consumed followed total lower with
  | case5 pos name consumed followed total lower len hget hpointer next hnext hback hfollow ih =>
    rw [← ih, scanNameLoop]
    simp [hget, hnext, hpointer, hback, hfollow]
  | case6 pos name consumed followed total lower hget hplain =>
    rw [scanNameLoop, matchesSoFar_count]
    simp only [hget, if_neg hplain, if_true]
    rfl
  | case9 pos name consumed followed total lower len hget hpointer hplain hzero hfits hmax label
      ih =>
    rw [← ih, scanNameLoop]
    simp only [hget, if_neg hpointer, if_pos hplain, hzero, hfits, hmax, if_false, dif_neg,
      not_false_iff, DomainName.pushLabel, length_append, length_singleton]
    rw [matchesSoFar_snoc]
  | _ => rw [scanNameLoop]; simp_all [Except.map]

/-- The scanner accepts what the parser accepts and reports the same name. -/
theorem scanCompressedName_eq : scanCompressedName packet offset expected =
      (DomainName.parse packet offset).map (fun parsed =>
        ⟨parsed.2, parsed.1.labels.length, expected.elim true fun name =>
          decide (parsed.1.lowerLabels = name.lowerLabels)⟩) := by
  have hscan := scanNameLoop_eq expected packet offset offset DomainName.root none 0 1 true
  have hstart : matchesSoFar expected DomainName.root.labels = true := by
    cases expected with
    | none => rfl
    | some name => simp [matchesSoFar, DomainName.root]
  rw [hstart] at hscan
  rw [scanCompressedName, DomainName.parse, DomainName.parseWithAsciiLowercase]
  refine hscan.trans ?_
  cases parseLoop packet offset offset DomainName.root none 0 1 true with
  | error e => rfl
  | ok parsed => rfl

/-- The labels that a buffer holds: its first ones when it is reused, and all of them otherwise. -/
def keptLabels (buffer : List Label) (labelCount : ℕ) : List Label :=
  if reuse then buffer.take labelCount else buffer

theorem keptLabels_putLabel {reuse : Bool} {buffer labels : List Label} (label : Label)
    (h : keptLabels reuse buffer labels.length = labels) :
    keptLabels reuse (putLabel reuse buffer labels.length label) (labels.length + 1) = labels ++
      [label] := by
  cases reuse with
  | false =>
    obtain rfl : buffer = labels := h
    rfl
  | true =>
    replace h : buffer.take labels.length = labels := h
    have hroom : labels.length ≤ buffer.length := by
      have := congrArg List.length h
      rw [length_take] at this
      omega
    show (putLabel true buffer labels.length label).take (labels.length + 1) = _
    rw [putLabel]
    split
    next hover =>
      rw [take_add_one, take_set_of_le le_rfl, h, List.getElem?_set_self hover.2]
      rfl
    next hend =>
      have hall : buffer.length = labels.length := by
        by_contra hne
        exact hend ⟨rfl, by omega⟩
      rw [← hall, take_length] at h
      rw [h, take_of_length_le (by simp)]

theorem parseLabelsLoop_eq (pos : ℕ) (name : DomainName) (consumed : Option ℕ) (followed total : ℕ)
    (lower : Bool) (buffer : List Label)
    (hbuffer : keptLabels reuse buffer name.labels.length = name.labels) :
    parseLabelsLoop reuse packet offset pos buffer name.labels.length consumed
      followed total lower =
      (parseLoop packet offset pos name consumed followed total lower).map fun parsed =>
        (parsed.1.labels, parsed.2) := by
  fun_induction parseLoop packet offset pos name consumed followed total lower
    generalizing buffer with
  | case5 pos name consumed followed total lower len hget hpointer next hnext hback hfollow ih =>
    rw [← ih buffer hbuffer, parseLabelsLoop]
    simp [hget, hnext, hpointer, hback, hfollow]
  | case6 pos name consumed followed total lower hget hplain =>
    rw [keptLabels] at hbuffer
    rw [parseLabelsLoop]
    simp only [hget, if_neg hplain, if_true, hbuffer]
    rfl
  | case9 pos name consumed followed total lower len hget hpointer hplain hzero hfits hmax label
      ih =>
    have hnext := keptLabels_putLabel label hbuffer
    rw [show name.labels.length + 1 = (name.labels ++ [label]).length by simp] at hnext
    rw [← ih _ hnext, parseLabelsLoop]
    simp only [hget, if_neg hpointer, if_pos hplain, hzero, hfits, hmax, if_false, dif_neg,
      not_false_iff, DomainName.pushLabel, length_append, length_singleton]
    rfl
  | _ => rw [parseLabelsLoop]; simp_all [Except.map]

theorem labelsLowercase_iff :
    labelsLowercase labels = true ↔ ∀ label ∈ labels, ∀ byte ∈ label,
      ¬ (65 ≤ byte ∧ byte ≤ 90) := by
  have hbyte : ∀ byte : UInt8, (toAsciiLowercase byte == byte) = true ↔
      ¬ (65 ≤ byte ∧ byte ≤ 90) := by
    intro byte
    rw [beq_iff_eq, toAsciiLowercase]
    split
    next hupper =>
      refine ⟨fun heq => ?_, fun hnot => absurd hupper hnot⟩
      have hsum := congrArg UInt8.toNat heq
      simp only [UInt8.toNat_add, UInt8.reduceToNat] at hsum
      omega
    · simp_all
  simp [labelsLowercase, hbyte]

/-- What the parser promises of a name it returns: labels of one to 63 octets, at
most 255 octets in all, a truthful lowercase flag, and an end inside the packet. -/
structure ParsedName (consumed : ℕ) (asciiLowercase : Bool) : Prop where
  labels_valid : ∀ label ∈ labels, 1 ≤ label.length ∧ label.length ≤ 63
  wire_len : (labelsWire labels).length + 1 ≤ 255
  lowercase_iff : asciiLowercase = true ↔ ∀ label ∈ labels, ∀ byte ∈ label,
    ¬ (65 ≤ byte ∧ byte ≤ 90)
  inside : offset + consumed ≤ packet.length

/-- The parser's contract, for every packet, offset, expected name and label
buffer: what it returns is a name inside the packet, the scanner accepts the same
bytes and reports the same name, a reused buffer changes nothing, and the wire
form of every name is read back wherever it stands. -/
theorem nameParser_contract (packet : List UInt8) (offset : ℕ) (expected : Option DomainName)
    (buffer : List Label) :
    (∀ labels consumed lower, parseWithReusableLabels false packet offset [] =
        .ok (labels, consumed, lower) → ParsedName packet offset labels consumed lower) ∧
      parseWithReusableLabels false packet offset [] =
        (DomainName.parseWithAsciiLowercase packet offset).map
          (fun parsed => (parsed.1.labels, parsed.2)) ∧
      parseWithReusableLabels true packet offset buffer =
        parseWithReusableLabels false packet offset [] ∧
      scanCompressedName packet offset expected = (DomainName.parse packet offset).map
        (fun parsed =>
          ⟨parsed.2, parsed.1.labels.length, expected.elim true fun name =>
            decide (parsed.1.lowerLabels = name.lowerLabels)⟩) ∧
      ∀ (name : DomainName) (before after : List UInt8), name.wireLen ≤ 255 →
        DomainName.parse (before ++ name.toWire ++ after) before.length = .ok
          (name, name.toWire.length) := by
  have hfresh : parseWithReusableLabels false packet offset [] =
      (DomainName.parseWithAsciiLowercase packet offset).map (fun parsed => (parsed.1.labels,
      parsed.2)) :=
    parseLabelsLoop_eq false packet offset offset DomainName.root none 0 1 true [] rfl
  have hreused : parseWithReusableLabels true packet offset buffer =
      (DomainName.parseWithAsciiLowercase packet offset).map (fun parsed => (parsed.1.labels,
      parsed.2)) :=
    parseLabelsLoop_eq true packet offset offset DomainName.root none 0 1 true buffer rfl
  refine ⟨?_, hfresh, hreused.trans hfresh.symm, scanCompressedName_eq packet offset expected, ?_⟩
  · intro labels consumed lower hparsed
    rw [hfresh] at hparsed
    cases hname : DomainName.parseWithAsciiLowercase packet offset with
    | error e =>
      rw [hname] at hparsed
      cases hparsed
    | ok parsed =>
      rw [hname] at hparsed
      obtain ⟨rfl, rfl, rfl⟩ : parsed.1.labels = labels ∧ parsed.2.1 = consumed ∧
          parsed.2.2 = lower := by
        simpa [Except.map, Prod.ext_iff] using hparsed
      obtain ⟨hflag, pointers, -, hat, hfits⟩ := DomainName.parseWithAsciiLowercase_spec hname
      exact ⟨parsed.1.labels_valid, hfits, by rw [hflag, labelsLowercase_iff], hat.next_le⟩
  · intro name before after hfits
    have hat : At (before ++ name.toWire ++ after) before.length name.toWire := by
      rw [append_assoc]
      exact At.at_end_append _ _ _
    rw [DomainName.parse_of_at hfits hat, name.length_toWire]

end BoronDns
