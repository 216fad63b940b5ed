import BoronDns.TsigReading

/-!
No input stops the program while a TSIG record is looked for, read and removed:
every read and write lies in its buffer, the counts never overflow, and only a
message without a TSIG is reported as missing it. A TSIG record that is found is
the end of the message, so stripping it in place and copying the message without
it are the same, and so are the borrowed and the owned verifiers.
-/

namespace BoronDns

open Bytes List Outcome

variable (hmac : Hmac) (algorithm : TsigAlgorithm)

section Reading

variable {message : List UInt8}

/-- Only a message without a TSIG is reported as missing it. -/
def NotMissing (e : TsigError) : Prop := e ≠ .missingTsig

theorem notMissing_malformed : NotMissing .malformedMessage ∧ NotMissing .malformedTsig ∧
    NotMissing .misplacedTsig := by
  simp [NotMissing]

theorem parseRecordView_gives (message : List UInt8) (offset : ℕ) :
    (parseRecordView message offset).Gives NotMissing fun view =>
      view.start = offset ∧ offset ≤ view.stop ∧ view.stop ≤ message.length := by
  have hmalformed := notMissing_malformed.1
  refine (gives_ofExcept _ fun _ => hmalformed).bind fun parsed _ => ?_
  obtain ⟨owner, consumed⟩ := parsed
  refine gives_ite (fun _ => hmalformed) fun hfixed => ?_
  refine (gives_u16At (by omega)).bind fun _ _ => ?_
  refine (gives_u16At (by omega)).bind fun _ _ => ?_
  refine (gives_u32At (by omega)).bind fun _ _ => ?_
  refine (gives_u16At (by omega)).bind fun rdlength _ => ?_
  refine gives_ite (fun _ => hmalformed) fun hrdata => ?_
  refine (gives_slice (by omega)).bind fun _ _ => ?_
  exact ⟨rfl, by dsimp only; omega, by dsimp only; omega⟩

theorem skipQuestions_gives (message : List UInt8) (count offset : ℕ) :
    (skipQuestions message count offset).Gives NotMissing (offset ≤ ·) := by
  have hmalformed := notMissing_malformed.1
  induction count generalizing offset with
  | zero => exact le_rfl
  | succ count ih =>
    refine (gives_ofExcept _ fun _ => hmalformed).bind fun consumed _ => ?_
    refine gives_ite (fun _ => hmalformed) fun _ => ?_
    exact (ih _).mono fun result hresult => by omega

theorem skipRecords_gives (message : List UInt8) (count offset : ℕ) :
    (skipRecords message count offset).Gives NotMissing (offset ≤ ·) := by
  induction count generalizing offset with
  | zero => exact le_rfl
  | succ count ih =>
    refine (parseRecordView_gives message offset).bind fun view hview => ?_
    refine gives_ite (fun _ => notMissing_malformed.2.2) fun _ => ?_
    exact (ih _).mono fun result hresult => hview.2.1.trans hresult

theorem toNat_index_succ {index arcount : UInt16} {remaining : ℕ}
    (h : index.toNat + (remaining + 1) = arcount.toNat) :
    (index + 1).toNat + remaining = arcount.toNat := by
  have hlt := arcount.toNat_lt
  rw [UInt16.toNat_add, UInt16.toNat_one, Nat.mod_eq_of_lt (by omega)]
  omega

/-- A TSIG record among the additional ones is the last of them. -/
theorem additionalRecords_gives (message : List UInt8) {arcount index : UInt16} {remaining : ℕ}
    (offset : ℕ) (hindex : index.toNat + remaining = arcount.toNat) :
    (additionalRecords message arcount remaining index offset none).Gives NotMissing fun found =>
      ∀ view, found.2 = some view →
        offset ≤ view.start ∧ view.start ≤ view.stop ∧ view.stop = found.1 ∧ 0 < arcount.toNat := by
  induction remaining generalizing index offset with
  | zero =>
    intro view hview
    cases hview
  | succ remaining ih =>
    have hlt := arcount.toNat_lt
    have hnext := toNat_index_succ hindex
    refine (parseRecordView_gives message offset).bind fun record hrec => ?_
    refine gives_ite (fun _ => ?_) fun _ => ?_
    · refine (gives_addU16 (by rw [UInt16.toNat_one]; omega)).bind fun next hsum => ?_
      refine gives_ite (fun _ => notMissing_malformed.2.2) fun hlast => ?_
      obtain rfl : remaining = 0 := by
        rw [hsum, not_not] at hlast
        rw [hlast] at hnext
        omega
      rintro view ⟨⟩
      exact ⟨hrec.1.ge, hrec.1.symm ▸ hrec.2.1, rfl, by omega⟩
    · refine (ih record.stop hnext).mono fun found hfound view hview => ?_
      obtain ⟨hfirst, hrest⟩ := hfound view hview
      exact ⟨hrec.2.1.trans hfirst, hrest⟩

/-- A TSIG record that is found stands behind the header and ends the message. -/
theorem finalTsigRecordView_gives (message : List UInt8) :
    (finalTsigRecordView message).Gives NotMissing fun found => ∀ view, found = some view →
      dnsHeaderLen ≤ view.start ∧ view.start ≤ view.stop ∧ view.stop = message.length ∧
        ∃ arcount : UInt16, (Outcome.u16At message 10 : Outcome TsigError UInt16) = .ok arcount ∧
          0 < arcount.toNat := by
  have hmalformed := notMissing_malformed.1
  refine gives_ite (fun _ => hmalformed) fun hheader => ?_
  simp only [dnsHeaderLen] at hheader
  refine (gives_u16At (by omega)).bind fun _ _ => ?_
  refine (gives_u16At (by omega)).bind fun _ _ => ?_
  refine (gives_u16At (by omega)).bind fun _ _ => ?_
  refine (gives_u16At (by omega)).bind fun arcount harcount => ?_
  refine (skipQuestions_gives _ _ _).bind fun _ hquestions => ?_
  refine (skipRecords_gives _ _ _).bind fun _ hans => ?_
  refine (skipRecords_gives _ _ _).bind fun _ hauthority => ?_
  refine (additionalRecords_gives _ _ (by simp)).bind fun found hfound => ?_
  refine gives_ite (fun _ => hmalformed) fun hend view hview => ?_
  obtain ⟨hstart, hle, hstop, hpos⟩ := hfound view hview
  exact ⟨by omega, hle, by omega, arcount, harcount, hpos⟩

variable {view : RecordView}

theorem finalTsigRecordView_some (h : finalTsigRecordView message = .ok (some view)) :
    dnsHeaderLen ≤ view.start ∧ view.start ≤ view.stop ∧ view.stop = message.length ∧
      ∃ arcount : UInt16, (Outcome.u16At message 10 : Outcome TsigError UInt16) = .ok arcount ∧
      0 < arcount.toNat :=
  (finalTsigRecordView_gives message).of_ok h view rfl

theorem parseTsigRecord_gives (record : RecordView) :
    (parseTsigRecord record).Gives NotMissing fun _ => True := by
  have hmalformed := notMissing_malformed.2.1
  refine gives_ite (fun _ => hmalformed) fun _ => ?_
  refine (gives_ofExcept _ fun _ => hmalformed).bind fun parsed _ => ?_
  obtain ⟨algorithmName, consumed⟩ := parsed
  refine gives_ite (fun _ => hmalformed) fun hfixed => ?_
  refine (gives_slice (by omega)).bind fun timeBytes hlen => ?_
  have htime : (u48FromWire timeBytes).Gives NotMissing fun _ => True := by
    refine (gives_u16At (by omega)).bind fun _ _ => ?_
    exact (gives_u32At (by omega)).bind fun _ _ => trivial
  refine htime.bind fun _ _ => ?_
  refine (gives_u16At (by omega)).bind fun _ _ => ?_
  refine (gives_u16At (by omega)).bind fun macLen _ => ?_
  refine gives_ite (fun _ => hmalformed) fun hmac => ?_
  refine (gives_slice (by omega)).bind fun _ _ => ?_
  refine (gives_u16At (by omega)).bind fun _ _ => ?_
  refine (gives_u16At (by omega)).bind fun _ _ => ?_
  refine (gives_u16At (by omega)).bind fun otherLen _ => ?_
  refine gives_ite (fun _ => hmalformed) fun hother => ?_
  exact (gives_slice (by omega)).bind fun _ _ => trivial

theorem finalTsigRecordView_of_requireTsig (h : requireTsig message = .ok view) :
    finalTsigRecordView message = .ok (some view) := by
  obtain ⟨found, hfound, h⟩ := bind_eq_ok_iff.mp h
  cases found with
  | some found =>
    obtain rfl := ok.inj h
    exact hfound
  | none => cases h

/-- Copying the message without the record is cutting it off. -/
theorem removeTsig_eq_owned (message : List UInt8) :
    removeTsig message = removeTsigOwned message := by
  unfold removeTsig removeTsigOwned
  split
  · rfl
  refine congrArg _ (funext fun arcount => ?_)
  cases hview : requireTsig message with
  | error e => rfl
  | stopped => rfl
  | ok view =>
    obtain ⟨-, hle, hstop, -⟩ := finalTsigRecordView_some (finalTsigRecordView_of_requireTsig hview)
    simp only [ok_bind]
    rw [slice_eq_ok ⟨Nat.zero_le _, by omega⟩, slice_eq_ok ⟨by omega, le_rfl⟩, hstop]
    simp

/-- How the record that is found, or is not, decides the removal. -/
theorem removeTsigOwned_cases (message : List UInt8) :
    (finalTsigRecordView message = .ok none ∧ removeTsigOwned message = .error .missingTsig) ∨
      (∃ e, finalTsigRecordView message = .error e ∧ removeTsigOwned message = .error e ∧
        NotMissing e) ∨
      (∃ view, finalTsigRecordView message = .ok (some view) ∧
        (removeTsigOwned message).Gives NotMissing fun _ => True) := by
  have hgives := finalTsigRecordView_gives message
  by_cases hshort : message.length < dnsHeaderLen
  · refine Or.inr (Or.inl ⟨.malformedMessage, ?_, ?_, notMissing_malformed.1⟩)
    · rw [finalTsigRecordView, if_pos hshort]
    · rw [removeTsigOwned, if_pos hshort]
  have hheader : 12 ≤ message.length := Nat.not_lt.mp hshort
  obtain ⟨arcount, harcount⟩ :=
    exists_u16At (ε := TsigError) (show 10 + 2 ≤ message.length by omega)
  rw [removeTsigOwned, if_neg hshort, harcount, ok_bind, requireTsig]
  cases hview : finalTsigRecordView message with
  | stopped =>
    rw [hview] at hgives
    exact absurd hgives id
  | error e =>
    rw [hview] at hgives
    exact Or.inr (Or.inl ⟨e, rfl, rfl, hgives⟩)
  | ok found =>
    cases found with
    | none => exact Or.inl ⟨rfl, rfl⟩
    | some view =>
      obtain ⟨hstart, hle, hstop, count, hcount, hpos⟩ := finalTsigRecordView_some hview
      obtain rfl := ok.inj (hcount.symm.trans harcount)
      have hlen : (message.take view.start).length = view.start := by
        rw [length_take]
        omega
      simp only [dnsHeaderLen] at hstart
      refine Or.inr (Or.inr ⟨view, rfl, ?_⟩)
      refine (parseTsigRecord_gives view).bind fun tsig _ => ?_
      refine (?_ : Outcome.Gives _ (fun _ => True) _).bind fun _ _ => trivial
      refine (gives_write (by rw [hlen, length_be16, dnsHeaderIdOffset]; omega)).bind
        fun identified hid => ?_
      refine (gives_subU16 (by rw [UInt16.toNat_one]; omega)).bind fun fewer _ => ?_
      refine (gives_write ?_).mono fun _ _ => trivial
      rw [hid, hlen, length_be16, dnsHeaderArcountOffset]
      omega

theorem removeTsigOwned_missing (h : finalTsigRecordView message = .ok none) :
    removeTsigOwned message = .error .missingTsig := by
  rcases removeTsigOwned_cases message with ⟨-, hmissing⟩ | ⟨e, hview, -⟩ | ⟨view, hview, -⟩
  · exact hmissing
  · exact absurd (h.symm.trans hview) (by simp)
  · exact absurd (h.symm.trans hview) (by simp)

theorem removeTsig_gives (message : List UInt8) :
    (removeTsig message).Gives (fun _ => True) fun _ => True := by
  rw [removeTsig_eq_owned]
  rcases removeTsigOwned_cases message with ⟨-, h⟩ | ⟨e, -, h, -⟩ | ⟨view, -, h⟩
  · rw [h]
    trivial
  · rw [h]
    trivial
  · exact h.imp (fun _ _ => trivial) fun _ _ => trivial

end Reading

section Keys

def algorithmOwner : DomainName :=
  ⟨[algorithm.name], by cases algorithm <;> decide⟩

theorem algorithmDomainName_eq :
    algorithmDomainName algorithm = .ok (algorithmOwner algorithm) := by
  cases algorithm <;> decide

theorem parse_algorithmOwner :
    (TsigAlgorithm.parse (algorithmOwner algorithm).toAsciiLowercased.canonicalKey).toOption =
      some algorithm := by
  cases algorithm <;> decide

theorem wireLen_algorithmOwner : (algorithmOwner algorithm).wireLen ≤ 255 := by
  cases algorithm <;> decide

variable (key : TsigKey)

/-- The fields that the MAC covers behind the message. -/
def coveredFields (timeSigned : UInt64) (fudge error : UInt16) (otherData : List UInt8) :
    List UInt8 :=
  canonicalNameWire key.name ++ be16 dnsClassAny ++ be32 tsigTtl ++
    (algorithmOwner key.algorithm).toWire ++
    u48Wire timeSigned ++ be16 fudge ++ be16 error ++
    be16 (UInt16.ofNat otherData.length) ++ otherData

theorem tsigVariables_eq (timeSigned : UInt64) (fudge error : UInt16) (otherData : List UInt8) :
    tsigVariables key timeSigned fudge error otherData = .ok
      (coveredFields key timeSigned fudge error otherData) := by
  rw [tsigVariables, algorithmNameWire, algorithmDomainName_eq]
  rfl

theorem signMessage_gives (message : List UInt8) (timeSigned : UInt64) (fudge : UInt16)
    (input : List UInt8) :
    (signMessage hmac key message timeSigned fudge (.ok input)).Gives (fun _ => True) fun _ =>
      True := by
  refine gives_ite (fun _ => trivial) fun hheader => ?_
  simp only [dnsHeaderLen] at hheader
  refine (gives_u16At (by rw [dnsHeaderIdOffset]; omega)).bind fun _ _ => ?_
  have harcount : (signedArcount message).Gives (fun _ => True) fun _ => True := by
    refine (gives_u16At (by rw [dnsHeaderArcountOffset]; omega)).bind fun _ _ => ?_
    exact gives_ite (fun _ => trivial) fun _ => trivial
  refine harcount.bind fun _ _ => ?_
  refine (gives_write (by rw [length_be16, dnsHeaderArcountOffset]; omega)).bind fun _ _ => ?_
  rw [appendTsigRr, algorithmDomainName_eq]
  trivial

end Keys

/-- The borrowed and the owned verification of a response are one. -/
theorem verifyResponse_eq_owned (message : List UInt8) (key : TsigKey) (requestMac : List UInt8)
    (now : UInt64) :
    verifyResponse hmac message key requestMac now =
      verifyResponseOwned hmac message key requestMac now := by
  unfold verifyResponse verifyResponseOwned validateAuthenticatedResponseError
  rw [removeTsig_eq_owned]
  refine congrArg _ (funext fun parsed => ?_)
  obtain ⟨unsigned, tsig⟩ := parsed
  dsimp only
  refine congrArg _ (funext fun _ => ?_)
  split
  · rfl
  refine congrArg _ (funext fun _ => ?_)
  refine congrArg _ (funext fun _ => ?_)
  refine congrArg _ (funext fun _ => ?_)
  split <;> rfl

/-- The two states of the stream verifiers hold the same. -/
structure SameStream (borrowed : StreamState) (owned : OwnedStreamState) : Prop where
  messages : borrowed.unsignedMessages = owned.unsignedMessages
  time : borrowed.lastTimeSigned = owned.lastTimeSigned
  mac : borrowed.priorMac = owned.priorMac
  bound : owned.pendingStart ≤ owned.unsignedMessages.length
  pending : borrowed.pendingUnsigned = owned.unsignedMessages.drop owned.pendingStart
  terminal : borrowed.lastMessageHadTsig = owned.lastMessageHadTsig

theorem streamStep_related (key : TsigKey) (now : UInt64) {borrowed : StreamState}
    {owned : OwnedStreamState} (h : SameStream borrowed owned) (message : List UInt8) :
    Related SameStream (streamStep hmac key now borrowed message)
      (ownedStreamStep hmac key owned (message, now)) := by
  have hbound := h.bound
  unfold streamStep ownedStreamStep
  dsimp only
  rw [removeTsig_eq_owned]
  rcases removeTsigOwned_cases message with
    ⟨hview, hmissing⟩ | ⟨e, hview, herror, hne⟩ | ⟨view, hview, hremove⟩
  · rw [hview, hmissing]
    have hlen : borrowed.pendingUnsigned.length =
        owned.unsignedMessages.length - owned.pendingStart := by
      rw [h.pending, length_drop]
    simp only [ok_bind, hlen]
    refine Related.ite (fun _ => rfl) fun _ => ?_
    refine ⟨by simp [h.messages], h.time, h.mac, ?_, ?_, rfl⟩
    · simp only [length_append]
      omega
    · simp only [h.pending]
      rw [drop_append_of_le_length hbound]
  · rw [hview, herror]
    split
    · exact absurd ‹_› (by simp)
    · exact absurd (error.inj ‹_›) hne
    · exact (error.inj ‹_›).symm
    · exact absurd ‹_› (by simp)
  · rw [hview]
    cases hremoved : removeTsigOwned message with
    | stopped => trivial
    | error e =>
      rw [hremoved] at hremove
      have hne : NotMissing e := hremove
      split
      · exact absurd ‹_› (by simp)
      · exact absurd (error.inj ‹_›) hne
      · exact (error.inj ‹_›).symm
      · exact absurd ‹_› (by simp)
    | ok removed =>
      obtain ⟨unsigned, tsig⟩ := removed
      refine (Related.refl _).bind fun _ _ (_ : _ = _) => ?_
      refine (Related.refl _).bind fun _ _ (_ : _ = _) => ?_
      rw [slice_eq_ok ⟨hbound, le_rfl⟩, ok_bind, verifyTcpTsigMacWithCurrent, verifyTcpTsigMac,
        tcpMacInput, h.mac, h.pending, h.time, ← length_drop, take_length, flatten_append,
        flatten_singleton, ← append_assoc (priorMacWire _)]
      refine (Related.refl _).bind fun _ _ (_ : _ = _) => ?_
      refine Related.ite (fun _ => rfl) fun _ => ?_
      refine (Related.refl _).bind fun _ _ (_ : _ = _) => ?_
      refine (Related.refl _).bind fun _ _ (_ : _ = _) => ?_
      refine ⟨by simp [h.messages], rfl, rfl, le_rfl, ?_, rfl⟩
      simp

/-- The borrowed and the owned stream verifiers give the same messages or the same
error when all messages are received at one time. -/
theorem verifyTcpResponseStream_eq_owned (messages : List (List UInt8)) (key : TsigKey)
    (requestMac : List UInt8) (now : UInt64) :
    verifyTcpResponseStream hmac messages key requestMac now =
      verifyTcpResponseStreamOwned hmac messages key requestMac now := by
  cases messages with
  | nil => rfl
  | cons first rest =>
    unfold verifyTcpResponseStreamOwned
    unfold verifyTcpResponseStream verifyTcpResponseStreamOwnedAtTimes
    dsimp only
    rw [verifyResponse_eq_owned]
    refine congrArg _ (funext fun verified => ?_)
    have hstart : SameStream ⟨[verified.message], verified.timeSigned, verified.mac, [], true⟩
        ⟨[verified.message], verified.timeSigned, verified.mac, 1, true⟩ :=
      ⟨rfl, rfl, rfl, le_rfl, rfl, rfl⟩
    have hitems : List.Forall₂ (fun message received => received = (message, now)) rest
        (rest.map fun message => (message, now)) :=
      forall₂_map_right_iff.mpr (forall₂_same.mpr fun _ _ => rfl)
    have hfold := Related.foldlM _ hitems
      (fun borrowed owned message received h hreceived => by
        rw [hreceived]
        exact streamStep_related hmac key now h message) hstart
    refine Related.eq (hfold.bind fun borrowed owned h => ?_)
    rw [h.terminal, h.messages]
    exact Related.refl _

end BoronDns
