import BoronDns.NameCompression

/-!
Every offset the compressor remembers holds the name it is remembered for. The
invariant is kept when a name is written, and a written name reads back, up to
case, as the name that was asked for. Each pointer that is followed stands
behind at least one label of its own, so a name never needs more pointers than
it has labels.
-/

namespace BoronDns

open Bytes List Nat

variable {packet : List UInt8} {labels : List Label} {offset : UInt16}
  {compressor : WireNameCompressor} {pos : ℕ} {kept rest : List Label} {ending : List UInt8}

private theorem pointerBytes_key (h : offset.toNat ≤ 0x3fff) :
    (0xc000 ||| offset).toNat = 49152 + offset.toNat := by
  have hor := two_pow_add_eq_or_of_lt (i := 14) (b := offset.toNat) (by omega) 3
  exact hor.symm

/-- A written pointer is read back as the offset it was written for. -/
theorem exists_pointerBytes (h : offset.toNat ≤ 0x3fff) :
    ∃ high low : UInt8, pointerBytes offset = [high, low] ∧ high &&& 0xc0 = 0xc0 ∧
      pointerTarget high low = offset.toNat := by
  have hvalue := pointerBytes_key h
  refine ⟨_, _, rfl, ?_, ?_⟩
  · rw [and_c0_eq_c0_iff, UInt8.toNat_ofNat', hvalue]
    omega
  · have hlow : (49152 + offset.toNat) % 256 < 2 ^ 8 := mod_lt _ (by decide)
    rw [pointerTarget, UInt8.toNat_and, UInt8.toNat_ofNat', UInt8.toNat_ofNat', hvalue,
      mod_mod, ← shiftLeft_add_eq_or_of_lt hlow]
    have hmask := and_two_pow_sub_one_eq_mod ((49152 + offset.toNat) / 256 % 2 ^ 8) 6
    simp only [UInt8.reduceToNat, shiftLeft_eq] at hmask ⊢
    rw [hmask]
    omega

theorem WireNameAt.pos_lt {pointers next : ℕ} (h : WireNameAt packet pos labels pointers next) :
    pos < packet.length := by
  cases h with
  | root h => exact lt_of_lt_of_le (by simp) (h.bound (by simp))
  | label h =>
    have := h.bound (by simp [labelWire])
    simp only [length_labelWire] at this
    omega
  | pointer h => exact lt_of_lt_of_le (by simp) (h.bound (by simp))

/-- Labels written in front of a name make one longer name. -/
theorem WireNameAt.prepend {pointers next : ℕ} (front : List Label) (hfront : ValidLabels front)
    (hat : At packet pos (labelsWire front))
    (h : WireNameAt packet (pos + (labelsWire front).length) labels pointers next) :
    WireNameAt packet pos (front ++ labels) pointers next := by
  induction front generalizing pos with
  | nil => simpa using h
  | cons label rest ih =>
    obtain ⟨hlabel, hrest⟩ := hfront.cons
    have hnext := hat.right_of_append (labelWire label)
    rw [length_labelWire, ← add_assoc] at hnext
    refine .label hat.left_of_append hlabel (ih hrest hnext ?_)
    rw [labelsWire_cons, length_append, length_labelWire] at h
    have heq : pos + 1 + label.length + (labelsWire rest).length =
        pos + (1 + label.length + (labelsWire rest).length) := by omega
    rw [heq]
    exact h

/-- An uncompressed name is parsed as it is written. -/
theorem DomainName.parse_of_at {name : DomainName} (hfits : name.wireLen ≤ 255)
    (h : At packet pos name.toWire) : DomainName.parse packet pos = .ok (name, name.wireLen) := by
  have hname := WireNameAt.prepend name.labels name.labels_valid h.left_of_append
    (.root (h.right_of_append (labelsWire name.labels)))
  rw [append_nil] at hname
  obtain ⟨parsed, hlabels, hparse⟩ := DomainName.parse_of_wireNameAt hname (zero_le _)
    (by rw [name.length_labelsWire_add_one]; exact hfits)
  obtain rfl : parsed = name := DomainName.ext hlabels
  rw [hparse, Nat.add_assoc, Nat.add_sub_cancel_left, parsed.length_labelsWire_add_one]

/-- A name as the writer leaves it in a message: labels of its own, closed by
the zero octet or by a pointer that is small enough and points back, reading
as `labels` up to case. -/
structure WrittenName (packet : List UInt8) (pos : ℕ) (labels : List Label) (len : ℕ) : Prop where
  reads : ∃ (read : List Label) (pointers : ℕ), read.map lowerLabel = labels.map lowerLabel ∧
    pointers ≤ labels.length ∧ WireNameAt packet pos read pointers (pos + len)
  closed : ∃ (kept : List Label) (ending : List UInt8),
    At packet pos (labelsWire kept ++ ending) ∧ len = (labelsWire kept ++ ending).length ∧
      (ending = [0] ∨ ∃ offset : UInt16, offset.toNat ≤ 0x3fff ∧ offset.toNat < pos ∧
      ending = pointerBytes offset)

/-- What stands behind the labels `kept` of a name whose other labels are `rest`:
the zero octet, or a pointer back that is small enough. It reads as `rest` up to
case and is no longer than `rest` written out. -/
structure Closes (packet : List UInt8) (kept rest : List Label) (ending : List UInt8) : Prop where
  reads : ∃ (read : List Label) (pointers : ℕ), read.map lowerLabel = rest.map lowerLabel ∧
    pointers ≤ rest.length ∧ WireNameAt (packet ++ (labelsWire kept ++ ending))
      (packet.length + (labelsWire kept).length) read pointers
      (packet.length + (labelsWire kept ++ ending).length)
  closed : ending = [0] ∨ ∃ offset : UInt16, offset.toNat ≤ 0x3fff ∧
    offset.toNat < packet.length ∧ ending = pointerBytes offset
  short : ending.length ≤ (labelsWire rest ++ [0]).length

theorem closes_root (kept : List Label) : Closes packet kept [] [0] := by
  refine ⟨⟨[], 0, rfl, le_rfl, ?_⟩, Or.inl rfl, le_rfl⟩
  rw [length_append]
  exact .root ((At.at_end _ _).right_of_append _)

theorem Closes.written (h : Closes packet kept rest ending) (hkept : ValidLabels kept) :
    WrittenName (packet ++ (labelsWire kept ++ ending)) packet.length (kept ++ rest)
      (labelsWire kept ++ ending).length := by
  obtain ⟨read, pointers, hlower, hfew, hname⟩ := h.reads
  refine ⟨⟨kept ++ read, pointers, by simp [hlower], ?_, ?_⟩, ⟨kept, ending, At.at_end _ _, rfl,
    h.closed⟩⟩
  · rw [length_append]
    omega
  · exact hname.prepend kept hkept (At.at_end_append _ _ _)

theorem Closes.length_le (h : Closes packet kept rest ending) :
    (labelsWire kept ++ ending).length ≤ (labelsWire (kept ++ rest) ++ [0]).length := by
  rw [labelsWire_append, append_assoc, length_append, length_append]
  exact Nat.add_le_add_left h.short _

theorem two_le_length_labelsWire (hvalid : ValidLabels labels) (hne : labels ≠ []) :
    2 ≤ (labelsWire labels).length := by
  obtain ⟨label, rest, rfl⟩ := exists_cons_of_ne_nil hne
  have hpos := hvalid.cons.1.1
  rw [labelsWire_cons, length_append, length_labelWire]
  omega

/-- At an offset that a pointer can reach the message holds a name that reads as
`labels` up to case, over fewer pointers than it has labels. -/
def HoldsName (packet : List UInt8) (labels : List Label) (offset : UInt16) : Prop :=
  ∃ (read : List Label) (pointers next : ℕ), ValidLabels read ∧
    read.map lowerLabel = labels.map lowerLabel ∧ offset.toNat ≤ 0x3fff ∧
    pointers < labels.length ∧ WireNameAt packet offset.toNat read pointers next

namespace HoldsName

theorem append (h : HoldsName packet labels offset) (more : List UInt8) :
    HoldsName (packet ++ more) labels offset := by
  obtain ⟨read, pointers, next, hvalid, hlower, hsmall, hfew, hname⟩ := h
  exact ⟨read, pointers, next, hvalid, hlower, hsmall, hfew, hname.append more⟩

theorem congr (h : HoldsName packet labels offset) {other : List Label}
    (hlower : labels.map lowerLabel = other.map lowerLabel) : HoldsName packet other offset := by
  obtain ⟨read, pointers, next, hvalid, hread, hsmall, hfew, hname⟩ := h
  have hlen : labels.length = other.length := by simpa using congrArg List.length hlower
  exact ⟨read, pointers, next, hvalid, hread.trans hlower, hsmall, hlen ▸ hfew, hname⟩

/-- A name that is written out can be pointed at. -/
theorem of_at (hvalid : ValidLabels labels) (hne : labels ≠ []) {start : ℕ}
    (hreach : start ≤ 0x3fff) (hat : At packet start (labelsWire labels ++ [0])) :
    HoldsName packet labels (UInt16.ofNat start) := by
  have hoffset : (UInt16.ofNat start).toNat = start := by
    rw [UInt16.toNat_ofNat']
    omega
  have hname := WireNameAt.prepend labels hvalid hat.left_of_append
    (.root (hat.right_of_append (labelsWire labels)))
  rw [append_nil] at hname
  refine ⟨labels, 0, start + (labelsWire labels).length + 1, hvalid, rfl, ?_,
    length_pos_iff.mpr hne, ?_⟩
  · rw [hoffset]
    exact hreach
  · rw [hoffset]
    exact hname

/-- A suffix of a name that was just written can be pointed at. -/
theorem of_closes {before after : List Label} (h : Closes packet (before ++ after) rest ending)
    (hvalid : ValidLabels (before ++ after ++ rest)) (hne : after ≠ [])
    (hreach : packet.length + (labelsWire before).length ≤ 0x3fff) :
    HoldsName (packet ++ (labelsWire (before ++ after) ++ ending)) (after ++ rest)
      (UInt16.ofNat (packet.length + (labelsWire before).length)) := by
  obtain ⟨read, pointers, hlower, hfew, hname⟩ := h.reads
  have hoffset : (UInt16.ofNat (packet.length + (labelsWire before).length)).toNat =
      packet.length + (labelsWire before).length := by
    rw [UInt16.toNat_ofNat']
    omega
  have hafter : ValidLabels after := fun label hlabel => hvalid label (by simp [hlabel])
  have hread : ValidLabels read :=
    ValidLabels.of_map_lowerLabel_eq
      (fun label hlabel => hvalid label (mem_append_right _ hlabel)) hlower.symm
  have hpos : 0 < after.length := length_pos_iff.mpr hne
  have hheld : WireNameAt (packet ++ (labelsWire (before ++ after) ++ ending))
      (packet.length + (labelsWire before).length) (after ++ read) pointers
      (packet.length + (labelsWire (before ++ after) ++ ending).length) := by
    have hat : At (packet ++ (labelsWire (before ++ after) ++ ending)) packet.length
        (labelsWire before ++ labelsWire after) := by
      rw [← labelsWire_append]
      exact At.at_end_append _ _ _
    refine WireNameAt.prepend after hafter (hat.right_of_append _) ?_
    rw [add_assoc, ← length_append, ← labelsWire_append]
    exact hname
  refine ⟨after ++ read, pointers, _, forall_mem_append.mpr ⟨hafter, hread⟩,
    by simp [hlower], hoffset.trans_le hreach, ?_, hoffset.symm ▸ hheld⟩
  rw [length_append]
  omega

/-- A pointer to a held name, behind labels of its own, reads as that name. -/
theorem closes (h : HoldsName packet labels offset) (hvalid : ValidLabels labels)
    (kept : List Label) : Closes packet kept labels (pointerBytes offset) := by
  obtain ⟨read, pointers, next, -, hlower, hsmall, hfew, hname⟩ := h
  have hback := hname.pos_lt
  obtain ⟨high, low, hbytes, hhigh, htarget⟩ := exists_pointerBytes hsmall
  have hlong := two_le_length_labelsWire hvalid (length_pos_iff.mp (by omega))
  refine ⟨⟨read, pointers + 1, hlower, hfew, ?_⟩, Or.inr ⟨offset, hsmall, hback, rfl⟩, ?_⟩
  · have hat : At (packet ++ (labelsWire kept ++ pointerBytes offset))
        (packet.length + (labelsWire kept).length) [high, low] := by
      rw [← hbytes]
      exact (At.at_end _ _).right_of_append _
    have hend : packet.length + (labelsWire kept ++ pointerBytes offset).length =
        packet.length + (labelsWire kept).length + 2 := by
      rw [length_append, hbytes]
      simp [add_assoc]
    have hfar := hname.append (labelsWire kept ++ pointerBytes offset)
    rw [← htarget] at hfar
    rw [hend]
    exact .pointer hat hhigh (by omega) hfar
  · rw [hbytes, length_append]
    exact le_succ_of_le hlong

end HoldsName

namespace WireNameCompressor

/-- What the compressor remembers is in the message. -/
def Sound (compressor : WireNameCompressor) (packet : List UInt8) : Prop :=
  ∀ entry ∈ compressor.suffixOffsets, ∃ (labels : List Label) (pointers next : ℕ),
    ValidLabels labels ∧ entry.key = labelsWire (labels.map lowerLabel) ++ [0] ∧
      entry.offset.toNat ≤ 0x3fff ∧ pointers < labels.length ∧
      WireNameAt packet entry.offset.toNat labels pointers next

theorem Sound.append (h : compressor.Sound packet) (more : List UInt8) :
    compressor.Sound (packet ++ more) := by
  intro entry hentry
  obtain ⟨labels, pointers, next, hvalid, hkey, hoffset, hfew, hname⟩ := h entry hentry
  exact ⟨labels, pointers, next, hvalid, hkey, hoffset, hfew, hname.append more⟩

/-- The offset found for a well-formed name holds that name. -/
theorem Sound.wireSuffixOffset (h : compressor.Sound packet) (hlabels : ValidLabels labels)
    (hfound : compressor.wireSuffixOffset (labelsWire labels ++ [0]) = some offset) :
    HoldsName packet labels offset := by
  obtain ⟨entry, hentry, rfl⟩ := Option.map_eq_some_iff.mp hfound
  have hmatch := List.find?_some hentry
  obtain ⟨read, pointers, next, hvalid, hkey, hoffset, hfew, hname⟩ :=
    h entry (mem_of_find?_eq_some hentry)
  rw [hkey] at hmatch
  have hlower : read.map lowerLabel = labels.map lowerLabel := by
    have := lower_eq_of_matchesKey hlabels hvalid.map_lowerLabel hmatch
    simpa [Function.comp_def] using this.symm
  have hlen : read.length = labels.length := by
    simpa using congrArg List.length hlower
  exact ⟨read, pointers, next, hvalid, hlower, hoffset, hlen ▸ hfew, hname⟩

variable (front : List Label) (label : Label)

private theorem nameWire_getElem? (rest : List Label) :
    (labelsWire (front ++ label :: rest) ++ [0])[(labelsWire front).length]? = some
      (UInt8.ofNat label.length) := by
  rw [labelsWire_append, append_assoc, List.getElem?_append_right le_rfl, Nat.sub_self]
  rfl

private theorem nameWire_getElem?_end (labels : List Label) :
    (labelsWire labels ++ [0])[(labelsWire labels).length]? = some 0 := by
  rw [List.getElem?_append_right le_rfl, Nat.sub_self]
  rfl

private theorem nameWire_drop (front back : List Label) :
    (labelsWire (front ++ back) ++ [0]).drop (labelsWire front).length = labelsWire back ++
      [0] := by
  rw [labelsWire_append, append_assoc, drop_left]

private theorem length_nameWire_cons (rest : List Label) :
    (labelsWire (front ++ label :: rest) ++ [0]).length =
      (labelsWire front).length + 1 + label.length + (labelsWire rest).length + 1 := by
  simp only [labelsWire_append, labelsWire_cons, length_append, length_labelWire, length_singleton]
  omega

private theorem length_labelsWire_snoc :
    (labelsWire (front ++ [label])).length = (labelsWire front).length + 1 + label.length := by
  simp only [labelsWire_append, labelsWire_cons, labelsWire_nil, append_nil, length_append,
    length_labelWire]
  omega

/-- One label of a well-formed name. Its suffix is looked up unless it is the
whole name or a suffix was found. -/
private theorem writePlanLoop_cons (compressor : WireNameCompressor) (front rest : List Label)
    {label : Label} (hlabel : 0 < label.length ∧ label.length ≤ 63) (found : Option (ℕ × UInt16)) :
    compressor.wireNameWritePlanLoop (labelsWire (front ++ label :: rest) ++ [0]) false
        (labelsWire front).length found =
      compressor.wireNameWritePlanLoop (labelsWire (front ++ [label] ++ rest) ++ [0]) false
        (labelsWire (front ++ [label])).length (if (labelsWire front).length ≠ 0 ∧ found = none then
          (compressor.wireSuffixOffset (labelsWire (label :: rest) ++ [0])).map
            fun offset => ((labelsWire front).length, offset) else found) := by
  have hplain := and_c0_ofNat_length hlabel.2
  have hlen := toNat_ofNat_length hlabel.2
  have hsize := length_nameWire_cons front label rest
  have hroom : ¬ (labelsWire (front ++ label :: rest) ++ [0]).length ≤
      (labelsWire front).length + 1 + label.length := by
    omega
  have hlong : 2 < (labelsWire (front ++ label :: rest) ++ [0]).length -
      (labelsWire front).length := by
    omega
  rw [wireNameWritePlanLoop, nameWire_getElem?, length_labelsWire_snoc, append_assoc,
    singleton_append]
  simp only [hplain, hlen, ofNat_length_ne_zero hlabel, ne_eq, not_true_eq_false,
    not_lt.mpr hlabel.2, if_false, hroom, dif_neg, not_false_iff, hlong, and_true,
    Bool.false_eq_true, or_false, nameWire_drop]

/-- Once a suffix is found the loop only checks that the rest is well formed. -/
private theorem writePlanLoop_found (compressor : WireNameCompressor) (front back : List Label)
    (hback : ValidLabels back) (found : ℕ × UInt16) :
    compressor.wireNameWritePlanLoop (labelsWire (front ++ back) ++ [0]) false
      (labelsWire front).length (some found) = some (found.1, some found) := by
  induction back generalizing front with
  | nil =>
    rw [wireNameWritePlanLoop, append_nil, nameWire_getElem?_end]
    simp
  | cons label rest ih =>
    rw [writePlanLoop_cons compressor front rest hback.cons.1, if_neg (by simp)]
    exact ih (front ++ [label]) hback.cons.2

/-- The plan writes out the labels in front of the first suffix that is
remembered, and the whole name when there is none. -/
private theorem writePlanLoop_spec (compressor : WireNameCompressor)
    (front back : List Label) (hback : ValidLabels back) :
    ∃ (kept rest : List Label) (pointer : Option UInt16), front ++ back = kept ++ rest ∧
      compressor.wireNameWritePlanLoop (labelsWire (front ++ back) ++ [0]) false
        (labelsWire front).length none =
          some ((labelsWire kept).length, pointer.map fun offset => ((labelsWire kept).length,
            offset)) ∧
      (pointer = none → rest = []) ∧
      ∀ offset, pointer = some offset → compressor.wireSuffixOffset
        (labelsWire rest ++ [0]) = some offset := by
  induction back generalizing front with
  | nil =>
    refine ⟨front, [], none, rfl, ?_, fun _ => rfl, nofun⟩
    rw [wireNameWritePlanLoop, append_nil, nameWire_getElem?_end]
    simp
  | cons label rest ih =>
    have hnext := ih (front ++ [label]) hback.cons.2
    rw [writePlanLoop_cons compressor front rest hback.cons.1]
    rw [append_assoc, singleton_append] at hnext ⊢
    split
    · cases hfound : compressor.wireSuffixOffset (labelsWire (label :: rest) ++ [0]) with
      | none => exact hnext
      | some offset =>
        refine ⟨front, label :: rest, some offset, rfl, ?_, nofun, fun _ heq => heq ▸ hfound⟩
        have hplan := writePlanLoop_found compressor (front ++ [label]) rest hback.cons.2
          ((labelsWire front).length, offset)
        rwa [append_assoc, singleton_append] at hplan
    · exact hnext

/-- The suffixes remembered while the labels `kept` of a name are written at
`start`. -/
private theorem mem_registerPrePointer (compressor : WireNameCompressor) (kept rest : List Label)
    (hvalid : ValidLabels (kept ++ rest)) (start : ℕ) (front back : List Label)
    (hsplit : kept = front ++ back) (entry : WireSuffixOffset)
    (h : entry ∈ (compressor.registerPrePointerWireSuffixes (labelsWire (kept ++ rest) ++ [0])
      (labelsWire kept).length start (labelsWire front).length).suffixOffsets) :
    entry ∈ compressor.suffixOffsets ∨ ∃ before after, kept = before ++ after ∧ after ≠ [] ∧
        start + (labelsWire before).length ≤ 0x3fff ∧ entry =
          ⟨labelsWire ((after ++ rest).map lowerLabel) ++ [0],
          UInt16.ofNat (start + (labelsWire before).length)⟩ := by
  induction back generalizing front compressor with
  | nil =>
    rw [registerPrePointerWireSuffixes, hsplit, append_nil, if_neg (lt_irrefl _)] at h
    exact Or.inl h
  | cons label tail ih =>
    have hlabel : 0 < label.length ∧ label.length ≤ 63 := hvalid label (by simp [hsplit])
    have hkept : (labelsWire kept).length =
        (labelsWire front).length + (1 + label.length + (labelsWire tail).length) := by
      simp [hsplit, labelsWire_append]
    have hwire : kept ++ rest = front ++ label :: (tail ++ rest) := by simp [hsplit]
    have hbyte : ((labelsWire (kept ++ rest) ++ [0]).getD (labelsWire front).length 0).toNat =
        label.length := by
      rw [hwire, getD_eq_getElem?_getD, nameWire_getElem?, Option.getD_some,
        toNat_ofNat_length hlabel.2]
    have hnext : (labelsWire front).length + (1 + label.length) =
        (labelsWire (front ++ [label])).length := by
      rw [length_labelsWire_snoc]
      omega
    have hdrop : (labelsWire (kept ++ rest) ++ [0]).drop (labelsWire front).length =
        labelsWire (label :: tail ++ rest) ++ [0] := by
      rw [hwire, nameWire_drop]
      rfl
    rw [registerPrePointerWireSuffixes, if_pos (by omega), hbyte, hnext] at h
    rcases ih _ (front ++ [label]) (by simp [hsplit]) h with hmem | hfound
    · split at hmem
      next hreach =>
        simp only [push, mem_append, mem_singleton] at hmem
        rcases hmem with hmem | hnew
        · exact Or.inl hmem
        · refine Or.inr ⟨front, label :: tail, hsplit, by simp, hreach.1, ?_⟩
          rw [hnew, hdrop, wireSuffixSmallKey_nameWire]
          intro other hother
          refine hvalid other ?_
          rw [hsplit]
          simp only [mem_append, mem_cons] at hother ⊢
          tauto
      · exact Or.inl hmem
    · exact Or.inr hfound

def afterName (compressor : WireNameCompressor) (wireName : List UInt8) (start : ℕ) :
    WireNameCompressor :=
  (compressor.writeWireName wireName (List.replicate start 0)).1

def nameChunk (compressor : WireNameCompressor) (wireName : List UInt8) : List UInt8 :=
  (compressor.writeWireName wireName []).2

/-- Of what is already written, only its length matters to the writer. -/
theorem writeWireName_eq (compressor : WireNameCompressor) (wireName response : List UInt8) :
    compressor.writeWireName wireName response =
      (compressor.afterName wireName response.length,
        response ++ compressor.nameChunk wireName) := by
  unfold afterName nameChunk writeWireName
  rcases (if 2 < wireName.length then compressor.wireSuffixOffset wireName else none) with _ | _
  · rcases compressor.wireNameWritePlan wireName false with _ | ⟨writeEnd, pointer⟩
    · simp
    · simp
  · simp

/-- A name that is held may be remembered. -/
private theorem exists_held (h : HoldsName packet labels offset) :
    ∃ (held : List Label) (pointers next : ℕ), ValidLabels held ∧
      labelsWire (labels.map lowerLabel) ++ [0] = labelsWire (held.map lowerLabel) ++ [0] ∧
      offset.toNat ≤ 0x3fff ∧ pointers < held.length ∧
      WireNameAt packet offset.toNat held pointers next := by
  obtain ⟨held, pointers, next, hheld, hsame, hsmall, hfew, hname⟩ := h
  have hlen : held.length = labels.length := by simpa using congrArg List.length hsame
  exact ⟨held, pointers, next, hheld, by rw [hsame], hsmall, hlen ▸ hfew, hname⟩

/-- The suffixes of the labels `kept` are remembered while they are written. -/
private theorem sound_afterName_of_closes (hsound : compressor.Sound packet)
    (hvalid : ValidLabels (kept ++ rest)) (h : Closes packet kept rest ending) :
    (compressor.registerPrePointerWireSuffixes (labelsWire (kept ++ rest) ++ [0])
      (labelsWire kept).length packet.length 0).Sound (packet ++ (labelsWire kept ++ ending)) := by
  intro entry hentry
  have hmem := mem_registerPrePointer compressor kept rest hvalid packet.length [] kept rfl entry
    hentry
  rcases hmem with hold | ⟨before, after, rfl, hne, hreach, rfl⟩
  · exact hsound.append _ entry hold
  · exact exists_held (HoldsName.of_closes h hvalid hne hreach)

/-- Writing a well-formed name keeps the invariant, leaves the name in the
message and takes no more bytes than its uncompressed form. -/
theorem Sound.writeWireName (hsound : compressor.Sound packet) (hvalid : ValidLabels labels) :
    (compressor.afterName (labelsWire labels ++ [0]) packet.length).Sound
        (packet ++ compressor.nameChunk (labelsWire labels ++ [0])) ∧
      WrittenName (packet ++ compressor.nameChunk (labelsWire labels ++ [0])) packet.length labels
        (compressor.nameChunk (labelsWire labels ++ [0])).length ∧
      (compressor.nameChunk (labelsWire labels ++ [0])).length ≤
        (labelsWire labels ++ [0]).length := by
  unfold afterName nameChunk WireNameCompressor.writeWireName
  cases hfull : (if 2 < (labelsWire labels ++ [0]).length then
      compressor.wireSuffixOffset (labelsWire labels ++ [0]) else none) with
  | some offset =>
    -- the whole name is already in the message
    have hfound : compressor.wireSuffixOffset (labelsWire labels ++ [0]) = some offset := by
      split at hfull
      · exact hfull
      · simp at hfull
    have hcloses := (hsound.wireSuffixOffset hvalid hfound).closes hvalid []
    exact ⟨hsound.append _, hcloses.written (by simp [ValidLabels]), hcloses.length_le⟩
  | none =>
    obtain ⟨kept, rest, pointer, hsplit, hplan, hnone, hsome⟩ :=
      writePlanLoop_spec compressor [] labels hvalid
    subst hsplit
    obtain ⟨hkept, hrest⟩ := forall_mem_append.mp hvalid
    have hplan : compressor.wireNameWritePlan (labelsWire (kept ++ rest) ++ [0]) false = _ := hplan
    have htake : (labelsWire (kept ++ rest) ++ [0]).take (labelsWire kept).length =
        labelsWire kept := by
      rw [labelsWire_append, append_assoc, take_left]
    simp only [hplan, htake, nil_append, length_replicate]
    cases pointer with
    | none =>
      obtain rfl := hnone rfl
      have hcloses : Closes packet kept [] [0] := closes_root kept
      exact ⟨sound_afterName_of_closes hsound hvalid hcloses, hcloses.written hkept,
        hcloses.length_le⟩
    | some offset =>
      have hcloses := (hsound.wireSuffixOffset hrest (hsome offset rfl)).closes hrest kept
      exact ⟨sound_afterName_of_closes hsound hvalid hcloses, hcloses.written hkept,
        hcloses.length_le⟩

private theorem map_lowerLabel_of_lowercase (h : labelsLowercase labels = true) :
    labels.map lowerLabel = labels := by
  have key : ∀ label ∈ labels, lowerLabel label = label := by
    intro label hlabel
    have hbytes := all_eq_true.mp (all_eq_true.mp h label hlabel)
    conv_rhs => rw [← map_id label]
    exact map_congr_left fun byte hbyte => by simpa using hbytes byte hbyte
  conv_rhs => rw [← map_id labels]
  exact map_congr_left fun label hlabel => by simpa using key label hlabel

variable {lowercase : Bool}

theorem labelSuffixSmallKey_eq (h : lowercase = true → labelsLowercase labels = true) :
    labelSuffixSmallKey labels lowercase = labelsWire (labels.map lowerLabel) ++ [0] := by
  cases lowercase with
  | false => rfl
  | true => simp [labelSuffixSmallKey, map_lowerLabel_of_lowercase (h rfl)]

/-- The question seeds the compressor with its own suffixes. The length it is
given is that of the name in the request, which may have been compressed: a
length that is too small only leaves suffixes out. -/
theorem Sound.registerNameLabelsAtOffset (hsound : compressor.Sound packet)
    (hvalid : ValidLabels labels) (hlower : lowercase = true → labelsLowercase labels = true)
    (nameWireLen start : ℕ) (hat : At packet start (labelsWire labels ++ [0])) :
    (compressor.registerNameLabelsAtOffset labels nameWireLen lowercase start).Sound packet := by
  induction labels generalizing compressor nameWireLen start with
  | nil => exact hsound
  | cons label rest ih =>
    obtain ⟨hlabel, hrest⟩ := hvalid.cons
    have hrestLower : lowercase = true → labelsLowercase rest = true := by
      intro h
      have hall := hlower h
      simp only [labelsLowercase, all_cons, Bool.and_eq_true] at hall
      exact hall.2
    have hnext : At packet (start + (1 + label.length)) (labelsWire rest ++ [0]) := by
      rw [labelsWire_cons, append_assoc] at hat
      simpa using hat.right_of_append (labelWire label)
    refine ih ?_ hrest hrestLower _ _ hnext
    split
    next hreach =>
      intro entry hentry
      simp only [push, mem_append, mem_singleton] at hentry
      rcases hentry with hold | rfl
      · exact hsound entry hold
      · rw [labelSuffixSmallKey_eq hlower]
        exact exists_held (HoldsName.of_at hvalid (cons_ne_nil _ _) hreach.1 hat)
    · exact hsound

end WireNameCompressor

end BoronDns
