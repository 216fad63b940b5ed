import BoronDns.RequestSections

/-!
What the parser of a request accepts. The options of an OPT record are framed by
their lengths; the parser goes through them in order and refuses a second padding
option and a first cookie of a wrong size. Over the additional records it keeps
at most one OPT record, so acceptance is a statement about the list of records,
and an error carries metadata exactly when the records read before it hold an OPT.
-/

namespace BoronDns

open Bytes PrefixCode List Outcome RecordType

variable {offset : ℕ} {packet : List UInt8} {options : List EdnsOption} {record : ParsedRecordView}

namespace RequestSections

/-- An option: its code and its value. -/
abbrev EdnsOption := UInt16 × List UInt8

def ednsOptionWire (option : EdnsOption) : List UInt8 :=
  be16 option.1 ++ (be16 (UInt16.ofNat option.2.length) ++ option.2)

/-- The text is a sequence of complete options. -/
structure Framed (text : List UInt8) (options : List EdnsOption) : Prop where
  text_eq : text = options.flatMap ednsOptionWire
  lengths : ∀ option ∈ options, option.2.length < 65536

def applyOptions (options : List EdnsOption) (state : EdnsOptions) :
    Outcome EdnsError EdnsOptions :=
  options.foldlM (fun state option => applyEdnsOption state option.1 option.2) state

variable (rdata : List UInt8) (state : EdnsOptions) (header : RequestHeader)

theorem parseEdnsCookieOption_eq (value : List UInt8) :
    if value.length = 8 ∨ 8 + 8 ≤ value.length ∧ value.length ≤ 8 + 32 then
      ∃ cookie, parseEdnsCookieOption value = .ok cookie
    else parseEdnsCookieOption value = .error .formErr := by
  unfold parseEdnsCookieOption
  split
  next hsize =>
    rw [if_neg (by omega), slice_eq_ok ⟨by omega, by omega⟩, ok_bind]
    have hclient : ((value.drop 0).take (8 - 0)).length = 8 := by
      rw [length_take, length_drop]
      omega
    simp only [dif_pos hclient]
    split
    next hlong => exact ⟨_, by rw [slice_eq_ok ⟨hlong.le, le_rfl⟩]; rfl⟩
    · exact ⟨_, rfl⟩
  next hsize => exact if_pos (by omega)

theorem applyEdnsOption_cases (code : UInt16) (value : List UInt8) :
    (∃ next, applyEdnsOption state code value = .ok next) ∨ applyEdnsOption state code value =
      .error .formErr := by
  unfold applyEdnsOption
  by_cases hcode : code = 10
  · subst hcode
    have hcookie := parseEdnsCookieOption_eq value
    split at hcookie
    · obtain ⟨cookie, hcookie⟩ := hcookie
      cases state.cookie <;> simp [hcookie]
    · cases state.cookie <;> simp [hcookie]
  · split_ifs <;> simp

theorem framed_drop_cons {rdata : List UInt8} {code len : UInt16}
    (hcode : At rdata offset (be16 code)) (hlen : At rdata (offset + 2) (be16 len))
    (hfits : offset + 4 + len.toNat ≤ rdata.length)
    (h : Framed (rdata.drop (offset + 4 + len.toNat)) options) :
    Framed (rdata.drop offset) ((code, (rdata.drop (offset + 4)).take len.toNat) :: options) := by
  have hvalueLength : ((rdata.drop (offset + 4)).take len.toNat).length = len.toNat := by
    rw [length_take, length_drop]
    omega
  have hvalue : At rdata (offset + 2 + 2) ((rdata.drop (offset + 4)).take len.toNat) :=
    take_prefix _ _
  obtain ⟨tail, htail⟩ := hcode.concat (hlen.concat hvalue)
  have hrest : tail = rdata.drop (offset + 4 + len.toNat) := by
    have hdrop := congrArg (List.drop (4 + len.toNat)) htail
    rw [drop_drop, drop_left' (by simp [hvalueLength]; omega)] at hdrop
    rw [hdrop, Nat.add_assoc]
  constructor
  · rw [flatMap_cons, ← h.text_eq, ← hrest, ← htail, ednsOptionWire, hvalueLength,
      UInt16.ofNat_toNat]
  · intro option hoption
    rcases mem_cons.mp hoption with rfl | hoption
    · rw [hvalueLength]
      exact len.toNat_lt
    · exact h.lengths option hoption

/-- On text that is a sequence of options the parser goes through them. -/
theorem parseEdnsOptionsLoop_of_framed {rdata : List UInt8} (h : Framed (rdata.drop offset) options)
    (state : EdnsOptions) :
    parseEdnsOptionsLoop rdata offset state = applyOptions options state := by
  induction options generalizing offset state with
  | nil =>
    have hend : rdata.length ≤ offset := drop_eq_nil_iff.mp h.text_eq
    rw [parseEdnsOptionsLoop, if_neg (by omega)]
    rfl
  | cons option options ih =>
    obtain ⟨code, value⟩ := option
    have hvalueLength : value.length < 65536 := h.lengths (code, value) (by simp)
    have hcount : (UInt16.ofNat value.length).toNat = value.length := by
      rw [UInt16.toNat_ofNat', Nat.mod_eq_of_lt hvalueLength]
    have hat : At rdata offset (ednsOptionWire (code, value)) :=
      ⟨options.flatMap ednsOptionWire, by rw [h.text_eq, flatMap_cons]⟩
    have hbound := hat.bound (by simp [ednsOptionWire, be16])
    have hlen := At.right_of_append _ hat
    have hvalue := At.right_of_append _ hlen
    simp only [ednsOptionWire, length_append, length_be16] at hbound hlen hvalue
    have hrest : Framed (rdata.drop (offset + 4 + value.length)) options := by
      refine ⟨?_, fun other hother => h.lengths other (by simp [hother])⟩
      have hdrop := congrArg (List.drop (4 + value.length)) h.text_eq
      rw [drop_drop, flatMap_cons, drop_left' (by simp [ednsOptionWire]; omega)] at hdrop
      rw [← hdrop, Nat.add_assoc]
    rw [parseEdnsOptionsLoop, if_pos (by omega), if_neg (by omega), u16At_of_at hat.left_of_append,
      ok_bind, u16At_of_at hlen.left_of_append, ok_bind, hcount, if_neg (by omega),
      slice_of_at hvalue (by omega) (by omega), ok_bind, applyOptions,
      foldlM_cons]
    cases hstep : applyEdnsOption state code value with
    | ok next => exact ih hrest next
    | error e => rfl
    | stopped => rfl

/-- Text that is not a sequence of options is refused. -/
theorem parseEdnsOptionsLoop_cases (offset : ℕ) (state : EdnsOptions) :
    (∃ options, Framed (rdata.drop offset) options) ∨ parseEdnsOptionsLoop rdata offset state =
      .error .formErr := by
  induction hleft : rdata.length - offset using Nat.strong_induction_on generalizing offset
      state with
  | _ left ih =>
    by_cases hend : offset < rdata.length
    · rw [parseEdnsOptionsLoop, if_pos hend]
      by_cases hshort : rdata.length < offset + 4
      · exact Or.inr (if_pos hshort)
      · rw [if_neg hshort]
        obtain ⟨code, hcode⟩ := At.exists_be16 rdata (show offset + 2 ≤ rdata.length by omega)
        obtain ⟨len, hlen⟩ := At.exists_be16 rdata (show offset + 2 + 2 ≤ rdata.length by omega)
        rw [u16At_of_at hcode, ok_bind, u16At_of_at hlen, ok_bind]
        by_cases hlong : rdata.length < offset + 4 + len.toNat
        · exact Or.inr (if_pos hlong)
        · rw [if_neg hlong, slice_eq_ok ⟨by omega, by omega⟩, ok_bind]
          rcases applyEdnsOption_cases state code ((rdata.drop (offset + 4)).take
              (offset + 4 + len.toNat - (offset + 4))) with ⟨next, hnext⟩ | herror
          · rw [hnext, ok_bind]
            rcases ih _ (by omega) (offset + 4 + len.toNat) next rfl with ⟨options, hrest⟩ | hrest
            · exact Or.inl ⟨_, framed_drop_cons hcode hlen (by omega) hrest⟩
            · exact Or.inr hrest
          · rw [herror]
            exact Or.inr rfl
    · refine Or.inl ⟨[], ?_, by simp⟩
      rw [drop_eq_nil_of_le (by omega)]
      rfl

/-- A cookie has a client part of eight octets and, if more, a server part of
eight to 32. -/
def CookieSize (value : List UInt8) : Prop :=
  value.length = 8 ∨ 16 ≤ value.length ∧ value.length ≤ 40

/-- The options that are accepted: at most one padding option, and a first
cookie of the right size. -/
@[mk_iff]
structure GoodOptions (options : List EdnsOption) : Prop where
  padding : (options.filter fun option => option.1 == 12).length ≤ 1
  cookie : ∀ option ∈ options.find? fun option => option.1 == 10, CookieSize option.2

/-- The same, behind the options that were read before. -/
@[mk_iff]
structure GoodAfter (options : List EdnsOption) : Prop where
  padding : (options.filter fun option => option.1 == 12).length +
    (if state.paddingRequested then 1 else 0) ≤ 1
  cookie : state.cookie.isNone = true →
    ∀ option ∈ options.find? fun option => option.1 == 10, CookieSize option.2

theorem parseEdnsCookieOption_ok_iff (value : List UInt8) :
    (∃ cookie, parseEdnsCookieOption value = .ok cookie) ↔ CookieSize value := by
  have hcases := parseEdnsCookieOption_eq value
  split_ifs at hcases with h
  · exact ⟨fun _ => h, fun _ => hcases⟩
  · simp [hcases, CookieSize, h]

/-- One option at a time: it is accepted, and the rest is good behind it. -/
theorem goodAfter_cons_iff (code : UInt16) (value : List UInt8) (options : List EdnsOption) :
    GoodAfter state ((code, value) :: options) ↔
      ∃ next, applyEdnsOption state code value = .ok next ∧ GoodAfter next options := by
  have hother : ∀ next : EdnsOptions, code ≠ 10 → code ≠ 12 → next.cookie = state.cookie →
      next.paddingRequested = state.paddingRequested →
      applyEdnsOption state code value = .ok next →
      (GoodAfter state ((code, value) :: options) ↔
        ∃ next, applyEdnsOption state code value = .ok next ∧ GoodAfter next options) := by
    intro next hcookie hpadding hsameCookie hsamePadding hnext
    simp [goodAfter_iff, hnext, hcookie, hpadding, hsameCookie, hsamePadding]
  by_cases hnsid : code = 3
  · exact hother { state with nsidRequested := true } (by simp [hnsid]) (by simp [hnsid]) rfl rfl
      (by simp [applyEdnsOption, hnsid])
  by_cases hcookie : code = 10
  · subst hcookie
    by_cases hnone : state.cookie.isNone = true
    · by_cases hsize : CookieSize value
      · obtain ⟨cookie, hparse⟩ := (parseEdnsCookieOption_ok_iff value).mpr hsize
        simp [goodAfter_iff, applyEdnsOption, hnone, hparse, hsize]
      · have hparse : ∀ cookie, parseEdnsCookieOption value ≠ .ok cookie := fun cookie hcookie =>
          hsize ((parseEdnsCookieOption_ok_iff value).mp ⟨cookie, hcookie⟩)
        simp [goodAfter_iff, applyEdnsOption, hnone, hsize, bind_eq_ok_iff, hparse]
    · simp_all [goodAfter_iff, applyEdnsOption]
  by_cases hkeepalive : code = 11
  · by_cases hempty : value.length = 0
    · exact hother { state with tcpKeepaliveRequested := true } (by simp [hkeepalive])
        (by simp [hkeepalive]) rfl rfl (by simp [applyEdnsOption, hkeepalive, hempty])
    · exact hother { state with malformedTcpKeepalive := true } (by simp [hkeepalive])
        (by simp [hkeepalive]) rfl rfl (by simp_all [applyEdnsOption])
  by_cases hpadding : code = 12
  · subst hpadding
    cases hseen : state.paddingRequested with
    | true => simp [goodAfter_iff, applyEdnsOption, hseen]
    | false => simp [goodAfter_iff, applyEdnsOption, hseen]
  exact hother state hcookie hpadding rfl rfl
    (by simp [applyEdnsOption, hnsid, hcookie, hkeepalive, hpadding])

theorem applyOptions_ok_iff (options : List EdnsOption) (state : EdnsOptions) :
    (∃ result, applyOptions options state = .ok result) ↔ GoodAfter state options := by
  induction options generalizing state with
  | nil =>
    refine ⟨fun _ => ⟨?_, by simp⟩, fun _ => ⟨state, rfl⟩⟩
    simp only [filter_nil, length_nil]
    split <;> omega
  | cons option options ih =>
    rw [goodAfter_cons_iff]
    constructor
    · rintro ⟨result, hresult⟩
      obtain ⟨next, hnext, hrest⟩ := bind_eq_ok_iff.mp hresult
      exact ⟨next, hnext, (ih next).mp ⟨result, hrest⟩⟩
    · rintro ⟨next, hnext, hgood⟩
      obtain ⟨result, hresult⟩ := (ih next).mpr hgood
      refine ⟨result, ?_⟩
      rw [applyOptions, foldlM_cons, hnext, ok_bind]
      exact hresult

theorem applyOptions_cases (options : List EdnsOption) (state : EdnsOptions) :
    (∃ result, applyOptions options state = .ok result) ∨
      applyOptions options state = .error .formErr := by
  induction options generalizing state with
  | nil => exact Or.inl ⟨state, rfl⟩
  | cons option options ih =>
    rw [applyOptions, foldlM_cons]
    rcases applyEdnsOption_cases state option.1 option.2 with ⟨next, hnext⟩ | herror
    · rw [hnext, ok_bind]
      exact ih next
    · rw [herror]
      exact Or.inr rfl

/-- The data of an OPT record that is accepted. -/
def ValidOptions : Prop :=
  ∃ options, Framed rdata options ∧ GoodOptions options

theorem goodAfter_default_iff (options : List EdnsOption) :
    GoodAfter EdnsOptions.default options ↔ GoodOptions options := by
  simp [goodAfter_iff, goodOptions_iff, EdnsOptions.default]

/-- The parser reads the options of an OPT record exactly when they are valid,
and reports a format error otherwise. -/
theorem parseEdnsOptions_cases :
    (ValidOptions rdata ∧ ∃ options, parseEdnsOptions rdata = .ok options) ∨
      ¬ ValidOptions rdata ∧ parseEdnsOptions rdata = .error .formErr := by
  have hframed : ∀ {options}, Framed rdata options →
      parseEdnsOptions rdata = applyOptions options EdnsOptions.default := by
    intro options h
    have hstart : Framed (rdata.drop 0) options := h
    exact parseEdnsOptionsLoop_of_framed hstart EdnsOptions.default
  by_cases hvalid : ValidOptions rdata
  · obtain ⟨options, hoptions, hgood⟩ := hvalid
    refine Or.inl ⟨⟨options, hoptions, hgood⟩, ?_⟩
    rw [hframed hoptions, applyOptions_ok_iff, goodAfter_default_iff]
    exact hgood
  · refine Or.inr ⟨hvalid, ?_⟩
    rcases parseEdnsOptionsLoop_cases rdata 0 EdnsOptions.default with ⟨options, hoptions⟩ | hparse
    · rcases applyOptions_cases options EdnsOptions.default with hok | herror
      · rw [applyOptions_ok_iff, goodAfter_default_iff] at hok
        exact absurd ⟨options, hoptions, hok⟩ hvalid
      · exact (hframed hoptions).trans herror
    · exact hparse

def ednsVersion (record : ParsedRecordView) : UInt8 := ((record.ttl >>> 16) &&& 0xff).toUInt8

/-- What an additional record can do: nothing, be the first OPT record and a
good one, or be an OPT record that is refused with metadata. -/
theorem addRecord_cases (edns : Option RequestEdns) (record : ParsedRecordView) :
    (record.rrType ≠ opt ∧ addRecord edns record = .ok edns) ∨
    (record.rrType = opt ∧ (edns = none ∧ record.ownerIsRoot = true ∧ ValidOptions record.rdata) ∧
      ∃ metadata, addRecord edns record = .ok (some metadata) ∧
        metadata.version = ednsVersion record) ∨
    (record.rrType = opt ∧ ¬ (edns = none ∧ record.ownerIsRoot = true ∧ ValidOptions record.rdata) ∧
      ∃ metadata, addRecord edns record = .error (.formErrWithMetadata (some metadata))) := by
  by_cases hopt : record.rrType = opt
  · right
    simp only [addRecord, hopt, if_true, true_and]
    cases edns with
    | some metadata => exact Or.inr ⟨by simp, metadata, by simp⟩
    | none =>
      cases hroot : record.ownerIsRoot with
      | false => exact Or.inr ⟨by simp, fixedMetadata record, by simp⟩
      | true =>
        rcases parseEdnsOptions_cases record.rdata with ⟨hvalid, options,
          hoptions⟩ | ⟨hvalid, herror⟩
        · exact Or.inl ⟨⟨rfl, rfl, hvalid⟩, withOptions (fixedMetadata record) options,
            by simp [hoptions], rfl⟩
        · exact Or.inr ⟨by simp [hvalid], fixedMetadata record, by simp [herror]⟩
  · exact Or.inl ⟨hopt, by simp [addRecord, hopt]⟩

/-- An OPT record is among the first records of a section that can be read. -/
def OptSeen (packet : List UInt8) (count offset : ℕ) : Prop :=
  ∃ seen stop, seen.length ≤ count ∧ RecordsFrom packet offset seen stop ∧
    ∃ record ∈ seen, record.rrType = opt

theorem not_optSeen_zero (packet : List UInt8) (offset : ℕ) : ¬ OptSeen packet 0 offset := by
  rintro ⟨seen, stop, hcount, -, record, hrec, -⟩
  obtain rfl := length_eq_zero_iff.mp (Nat.le_zero.mp hcount)
  simp at hrec

theorem not_optSeen_of_none (h : ¬ ∃ record next, RecordAt packet offset record next) (count : ℕ) :
    ¬ OptSeen packet count offset := by
  rintro ⟨seen, stop, -, hseen, record, hrec, -⟩
  cases seen with
  | nil => simp at hrec
  | cons first seen =>
    obtain ⟨next, hfirst, -⟩ := hseen
    exact h ⟨first, next, hfirst⟩

theorem optSeen_succ_iff {next : ℕ} (h : RecordAt packet offset record next) (count : ℕ) :
    OptSeen packet (count + 1) offset ↔ record.rrType = opt ∨ OptSeen packet count next := by
  constructor
  · rintro ⟨seen, stop, hcount, hseen, opt, hmem, hopt⟩
    cases seen with
    | nil => simp at hmem
    | cons first seen =>
      obtain ⟨middle, hfirst, hrest⟩ := hseen
      obtain ⟨rfl, rfl⟩ := h.unique hfirst
      rcases mem_cons.mp hmem with rfl | hmem
      · exact Or.inl hopt
      · exact Or.inr ⟨seen, stop, by simpa using hcount, hrest, opt, hmem, hopt⟩
  · rintro (hopt | ⟨seen, stop, hcount, hseen, opt, hmem, hopt⟩)
    · exact ⟨[record], next, by simp, ⟨next, h, rfl⟩, record, by simp, hopt⟩
    · exact ⟨record :: seen, stop, by simpa using hcount, ⟨next, h, hseen⟩, opt, by simp [hmem],
        hopt⟩

theorem additionalRecords_of_recordAt {next : ℕ} (h : RecordAt packet offset record next)
    (count : ℕ) (edns : Option RequestEdns) : additionalRecords packet (count + 1) offset edns =
      (addRecord edns record >>= fun edns => additionalRecords packet count next edns) := by
  obtain ⟨hparse, hlt⟩ := parseRecordView_of_recordAt h
  rw [additionalRecords, nextAdditional, hparse]
  simp only [ok_bind]
  rw [show offset + (next - offset) = next by omega]

theorem additionalRecords_of_none (h : ¬ ∃ record next, RecordAt packet offset record next)
    (count : ℕ) (edns : Option RequestEdns) :
    ∃ e, additionalRecords packet (count + 1) offset edns = .error e ∧
      (e.edns.isSome ↔ edns.isSome) := by
  rw [additionalRecords, nextAdditional, parseRecordView_of_none h]
  cases edns with
  | none => exact ⟨.formErr, rfl, Iff.rfl⟩
  | some metadata => exact ⟨.formErrWithMetadata (some metadata), rfl, Iff.rfl⟩

/-- The loop returns, and what it returns carries metadata exactly when an OPT
record has been read. -/
theorem additionalRecords_gives (packet : List UInt8) (count offset : ℕ)
    (edns : Option RequestEdns) : (additionalRecords packet count offset edns).Gives
      (fun e => e.edns.isSome ↔ edns.isSome ∨ OptSeen packet count offset)
      fun read => read.2.isSome ↔ edns.isSome ∨ OptSeen packet count offset := by
  induction count generalizing offset edns with
  | zero => simp [additionalRecords, Outcome.Gives, not_optSeen_zero]
  | succ count ih =>
    by_cases hrec : ∃ record next, RecordAt packet offset record next
    · obtain ⟨record, next, hrec⟩ := hrec
      simp only [additionalRecords_of_recordAt hrec, optSeen_succ_iff hrec]
      rcases addRecord_cases edns record with ⟨hplain, hstep⟩ | ⟨hopt, -, metadata, hstep, -⟩ |
        ⟨hopt, -, metadata, hstep⟩
      · rw [hstep, ok_bind]
        simp only [hplain, false_or]
        exact ih next edns
      · rw [hstep, ok_bind]
        simpa [hopt] using ih next (some metadata)
      · simp [hstep, Outcome.Gives, EdnsError.edns, hopt]
    · obtain ⟨e, he, hcarries⟩ := additionalRecords_of_none hrec count edns
      simp [he, Outcome.Gives, hcarries, not_optSeen_of_none hrec]

/-- On records that stand one after the other the loop goes through them. -/
theorem additionalRecords_of_recordsFrom {stop : ℕ} {records : List ParsedRecordView}
    (h : RecordsFrom packet offset records stop) (edns : Option RequestEdns) :
    additionalRecords packet records.length offset edns =
      (records.foldlM addRecord edns >>= fun result => .ok (stop, result)) := by
  induction records generalizing offset edns with
  | nil =>
    have hstop : stop = offset := h
    rw [hstop]
    rfl
  | cons record records ih =>
    obtain ⟨next, hrec, hrest⟩ := h
    rw [length_cons, additionalRecords_of_recordAt hrec, foldlM_cons, bind_assoc]
    exact congrArg (addRecord edns record >>= ·) (funext fun edns => ih hrest edns)

theorem recordsFrom_of_additionalRecords {count stop : ℕ} {edns result : Option RequestEdns}
    (h : additionalRecords packet count offset edns = .ok (stop, result)) :
    ∃ records, records.length = count ∧ RecordsFrom packet offset records stop := by
  induction count generalizing offset edns with
  | zero =>
    obtain ⟨rfl, -⟩ := Prod.mk.inj (ok.inj h)
    exact ⟨[], rfl, rfl⟩
  | succ count ih =>
    by_cases hrec : ∃ record next, RecordAt packet offset record next
    · obtain ⟨record, next, hrec⟩ := hrec
      rw [additionalRecords_of_recordAt hrec] at h
      obtain ⟨later, -, hlater⟩ := bind_eq_ok_iff.mp h
      obtain ⟨records, hcount, hrecs⟩ := ih hlater
      exact ⟨record :: records, by simp [hcount], next, hrec, hrecs⟩
    · obtain ⟨e, he, -⟩ := additionalRecords_of_none hrec count edns
      rw [he] at h
      cases h

/-- Among the additional records: at most one OPT, with the root as owner,
options that can be read and version zero. -/
structure OneGoodOpt (records : List ParsedRecordView) : Prop where
  once : (records.filter fun record => record.rrType == opt).length ≤ 1
  good : ∀ record ∈ records, record.rrType = opt →
    record.ownerIsRoot = true ∧ ValidOptions record.rdata ∧ ednsVersion record = 0

variable (records : List ParsedRecordView)

theorem foldlM_addRecord_some_iff (metadata : RequestEdns)
    (result : Option RequestEdns) : records.foldlM addRecord (some metadata) = .ok result ↔
      (∀ record ∈ records, record.rrType ≠ opt) ∧ result = some metadata := by
  induction records with
  | nil => simp [eq_comm]
  | cons record records ih =>
    rw [foldlM_cons]
    rcases addRecord_cases (some metadata) record with ⟨hplain, hstep⟩ | ⟨-, ⟨hnone, -⟩, -⟩ |
      ⟨hopt, -, refused, hstep⟩
    · rw [hstep, ok_bind, ih]
      simp [hplain]
    · cases hnone
    · rw [hstep]
      simp [hopt]

theorem foldlM_addRecord_none_iff :
    (∃ result, records.foldlM addRecord none = .ok result ∧
        ∀ metadata ∈ result, metadata.version = 0) ↔ OneGoodOpt records := by
  induction records with
  | nil => exact ⟨fun _ => ⟨by simp, by simp⟩, fun _ => ⟨none, rfl, by simp⟩⟩
  | cons record records ih =>
    rw [foldlM_cons]
    rcases addRecord_cases none record with ⟨hplain, hstep⟩ |
      ⟨hopt, ⟨-, hroot, hvalid⟩, metadata, hstep, hversion⟩ | ⟨hopt, hbad, refused, hstep⟩
    · rw [hstep, ok_bind, ih]
      constructor
      · intro h
        exact ⟨by simpa [hplain] using h.once, by simpa [hplain] using h.good⟩
      · intro h
        exact ⟨by simpa [hplain] using h.once, fun r hr => h.good r (by simp [hr])⟩
    · rw [hstep, ok_bind]
      simp only [foldlM_addRecord_some_iff]
      constructor
      · rintro ⟨result, ⟨hplain, rfl⟩, hzero⟩
        have hnone : (records.filter fun record => record.rrType == opt) = [] := by
          rw [filter_eq_nil_iff]
          intro r hr
          simpa using hplain r hr
        refine ⟨by simp [hopt, hnone], ?_⟩
        intro r hr hropt
        rcases mem_cons.mp hr with rfl | hr
        · exact ⟨hroot, hvalid, hversion ▸ hzero metadata rfl⟩
        · exact absurd hropt (hplain r hr)
      · intro h
        refine ⟨some metadata, ⟨?_, rfl⟩, ?_⟩
        · intro r hr hropt
          have honce := h.once
          rw [filter_cons_of_pos (by simp [hopt]), length_cons] at honce
          have hmem : r ∈ records.filter fun record => record.rrType == opt :=
            mem_filter.mpr ⟨hr, by simp [hropt]⟩
          have hpos := length_pos_of_mem hmem
          omega
        · intro other hother
          obtain rfl := Option.some.inj hother
          rw [hversion]
          exact (h.good record (by simp) hopt).2.2
    · rw [hstep]
      constructor
      · rintro ⟨result, hresult, -⟩
        cases hresult
      · intro h
        obtain ⟨hroot, hvalid, -⟩ := h.good record (by simp) hopt
        exact absurd ⟨rfl, hroot, hvalid⟩ hbad

theorem finishParse_ok_iff (packet : List UInt8) (offset : ℕ) (edns result : Option RequestEdns) :
    finishParse packet offset edns = .ok result ↔
      offset = packet.length ∧ (∀ metadata ∈ edns, metadata.version = 0) ∧ result = edns := by
  unfold finishParse
  by_cases hend : offset = packet.length
  · cases edns with
    | none => simp [hend, eq_comm]
    | some metadata =>
      by_cases hzero : metadata.version = 0
      · simp [hend, hzero, eq_comm]
      · have hpos : 0 < metadata.version := UInt8.pos_iff_ne_zero.mpr hzero
        simp [hend, hzero, hpos]
  · cases edns <;> simp [hend]

theorem finishParse_gives (packet : List UInt8) (offset : ℕ) (edns : Option RequestEdns) :
    (finishParse packet offset edns).Gives (fun e => e.edns.isSome ↔ edns.isSome) fun _ =>
      True := by
  unfold finishParse
  split_ifs with hend hsome hversion
  · exact Iff.rfl
  · simpa [Outcome.Gives, EdnsError.edns] using hsome
  · exact Iff.rfl
  · trivial

/-- A query has no answer or authority records. -/
def CountsAllowed : Prop :=
  header.opcode = some .query → header.ancount = 0 ∧ header.nscount = 0

/-- The requests whose sections are accepted: the counted records, one after the
other, end where the packet ends, and the OPT record is a good one. -/
def WellFormedSections (packet : List UInt8) (offset : ℕ) : Prop :=
  CountsAllowed header ∧ ∃ authorityStart additionalStart additionals,
    PlainSection packet header.ancount.toNat offset authorityStart ∧
    PlainSection packet header.nscount.toNat authorityStart additionalStart ∧
    additionals.length = header.arcount.toNat ∧
    RecordsFrom packet additionalStart additionals packet.length ∧ OneGoodOpt additionals

/-- The parser got as far as an OPT record among the additional records. -/
def OptDecoded (packet : List UInt8) (offset : ℕ) : Prop :=
  CountsAllowed header ∧ ∃ authorityStart additionalStart,
    PlainSection packet header.ancount.toNat offset authorityStart ∧
    PlainSection packet header.nscount.toNat authorityStart additionalStart ∧
    OptSeen packet header.arcount.toNat additionalStart

theorem countsAllowed_iff :
    CountsAllowed header ↔ ¬ (header.opcode = some .query ∧
      (header.ancount ≠ 0 ∨ header.nscount ≠ 0)) := by
  unfold CountsAllowed
  tauto

/-- The sections before the additional records are walked, or an error without
metadata is reported and they do not stand in the packet. -/
theorem parseFromOffset_cases (packet : List UInt8) (offset : ℕ) :
    (∃ additionalStart, parseFromOffset header packet offset =
        (additionalRecords packet header.arcount.toNat additionalStart none >>= fun read =>
          finishParse packet read.1 read.2) ∧ CountsAllowed header ∧ ∃ authorityStart,
        (∀ other, PlainSection packet header.ancount.toNat offset other ↔ other = authorityStart) ∧
        ∀ other, PlainSection packet header.nscount.toNat authorityStart other ↔
          other = additionalStart) ∨
      (parseFromOffset header packet offset = .error .formErr ∧
        ¬ (CountsAllowed header ∧ ∃ authorityStart additionalStart,
          PlainSection packet header.ancount.toNat offset authorityStart ∧
          PlainSection packet header.nscount.toNat authorityStart additionalStart)) := by
  unfold parseFromOffset
  by_cases hcounts : CountsAllowed header
  · rw [if_neg ((countsAllowed_iff header).mp hcounts)]
    rcases skipRecords_cases packet header.ancount.toNat offset with
      ⟨authorityStart, hskip, hsection⟩ | ⟨herror, hnone⟩
    · rw [hskip, ok_bind]
      rcases skipRecords_cases packet header.nscount.toNat authorityStart with
        ⟨additionalStart, hnext, hnextSection⟩ | ⟨herror, hnone⟩
      · rw [hnext, ok_bind]
        exact Or.inl ⟨additionalStart, rfl, hcounts, authorityStart, hsection, hnextSection⟩
      · rw [herror]
        refine Or.inr ⟨rfl, ?_⟩
        rintro ⟨-, first, second, hfirst, hsecond⟩
        obtain rfl := (hsection first).mp hfirst
        exact hnone second hsecond
    · rw [herror]
      refine Or.inr ⟨rfl, ?_⟩
      rintro ⟨-, first, second, hfirst, -⟩
      exact hnone first hfirst
  · rw [if_pos (not_not.mp fun h => hcounts ((countsAllowed_iff header).mpr h))]
    exact Or.inr ⟨rfl, fun h => hcounts h.1⟩

theorem additionalRecords_accepts_iff (packet : List UInt8) (count start : ℕ) :
    (∃ read, additionalRecords packet count start none = .ok read ∧
        ∃ result, finishParse packet read.1 read.2 = .ok result) ↔ ∃ additionals,
          additionals.length = count ∧
        RecordsFrom packet start additionals packet.length ∧ OneGoodOpt additionals := by
  constructor
  · rintro ⟨⟨stop, edns⟩, hread, result, hfinish⟩
    obtain ⟨hstop, hversion, -⟩ := (finishParse_ok_iff packet stop edns result).mp hfinish
    obtain ⟨records, hcount, hrecs⟩ := recordsFrom_of_additionalRecords hread
    rw [← hcount, additionalRecords_of_recordsFrom hrecs] at hread
    obtain ⟨kept, hkept, hsame⟩ := bind_eq_ok_iff.mp hread
    obtain ⟨-, rfl⟩ := Prod.mk.inj (ok.inj hsame)
    exact ⟨records, hcount, hstop ▸ hrecs,
      (foldlM_addRecord_none_iff records).mp ⟨kept, hkept, hversion⟩⟩
  · rintro ⟨additionals, rfl, hrecs, hgood⟩
    obtain ⟨result, hresult, hversion⟩ := (foldlM_addRecord_none_iff additionals).mpr hgood
    refine ⟨(packet.length, result), ?_, result, ?_⟩
    · rw [additionalRecords_of_recordsFrom hrecs, hresult]
      rfl
    · exact (finishParse_ok_iff packet packet.length result result).mpr ⟨rfl, hversion, rfl⟩

/-- The contract of the request parser, for every packet, header and offset: it
does not stop the program, it accepts exactly the well-formed requests, and its
error carries metadata exactly when an OPT record has been decoded. -/
theorem parseFromOffset_contract (header : RequestHeader) (packet : List UInt8) (offset : ℕ) :
    (parseFromOffset header packet offset).Returns ∧
      ((∃ edns, parseFromOffset header packet offset = .ok edns) ↔
        WellFormedSections header packet offset) ∧
      ∀ e, parseFromOffset header packet offset = .error e →
      (e.edns.isSome ↔ OptDecoded header packet offset) := by
  rcases parseFromOffset_cases header packet offset with
    ⟨start, hparse, hcounts, authorityStart, hanswers, hauthorities⟩ | ⟨hparse, hnone⟩
  · have haccepts : (∃ edns, parseFromOffset header packet offset = .ok edns) ↔
        WellFormedSections header packet offset := by
      rw [hparse]
      constructor
      · rintro ⟨edns, hedns⟩
        obtain ⟨read, hread, hfinish⟩ := bind_eq_ok_iff.mp hedns
        obtain ⟨additionals, hcount, hrecords, hgood⟩ :=
          (additionalRecords_accepts_iff packet _ start).mp ⟨read, hread, edns, hfinish⟩
        exact ⟨hcounts, authorityStart, start, additionals, (hanswers _).mpr rfl,
          (hauthorities _).mpr rfl, hcount, hrecords, hgood⟩
      · rintro ⟨-, first, second, additionals, hfirst, hsecond, hcount, hrecords, hgood⟩
        obtain rfl := (hanswers first).mp hfirst
        obtain rfl := (hauthorities second).mp hsecond
        obtain ⟨read, hread, edns, hfinish⟩ :=
          (additionalRecords_accepts_iff packet _ second).mpr ⟨additionals, hcount, hrecords, hgood⟩
        exact ⟨edns, bind_eq_ok_iff.mpr ⟨read, hread, hfinish⟩⟩
    have hdecoded : OptDecoded header packet offset ↔
        OptSeen packet header.arcount.toNat start := by
      constructor
      · rintro ⟨-, first, second, hfirst, hsecond, hseen⟩
        obtain rfl := (hanswers first).mp hfirst
        obtain rfl := (hauthorities second).mp hsecond
        exact hseen
      · intro hseen
        exact ⟨hcounts, authorityStart, start, (hanswers _).mpr rfl, (hauthorities _).mpr rfl,
          hseen⟩
    have hgives : (parseFromOffset header packet offset).Gives
        (fun e => e.edns.isSome ↔ OptDecoded header packet offset) fun _ => True := by
      have hread := additionalRecords_gives packet header.arcount.toNat start none
      simp only [Option.isSome_none, Bool.false_eq_true, false_or, ← hdecoded] at hread
      rw [hparse]
      refine hread.bind fun read hmetadata => ?_
      exact (finishParse_gives packet read.1 read.2).imp (fun _ hsame => hsame.trans hmetadata)
        fun _ => id
    exact ⟨hgives.returns, haccepts, fun e he => hgives.of_error he⟩
  · refine ⟨hparse ▸ returns_error _, ⟨?_, ?_⟩, ?_⟩
    · rintro ⟨edns, hedns⟩
      rw [hparse] at hedns
      cases hedns
    · rintro ⟨hcounts, first, second, -, hfirst, hsecond, -⟩
      exact absurd ⟨hcounts, first, second, hfirst, hsecond⟩ hnone
    · intro e he
      obtain rfl := error.inj (hparse.symm.trans he)
      refine ⟨fun hsome => absurd hsome (by simp [EdnsError.edns]), ?_⟩
      rintro ⟨hcounts, first, second, hfirst, hsecond, -⟩
      exact absurd ⟨hcounts, first, second, hfirst, hsecond⟩ hnone

end RequestSections

end BoronDns
