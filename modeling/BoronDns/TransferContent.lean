import BoronDns.CanonicalRdata
import BoronDns.TransferResponse

/-!
What is known of the records that a transfer has read. They have the class of the
zone, the data of a CNAME or DNAME is the wire form of a name, and the data of an SOA
is two names and twenty octets. So two aliases with one identity have one target, and
two SOA records with one identity have the same serial and timers.
-/

namespace BoronDns

open Bytes List DomainName Except RecordType

variable {offset : ℕ} {rdata : Rdata} {messages : List (List UInt8)} {answers : List ResourceRecord}

theorem wireLen_of_parseRdataName {message : List UInt8} {rdataEnd len : ℕ} {name : DomainName}
    (h : parseRdataName message offset rdataEnd = .ok (name, len)) : name.wireLen ≤ 255 := by
  unfold parseRdataName at h
  split at h
  · cases h
  obtain ⟨⟨parsed, consumed⟩, hparse, h⟩ := bind_eq_ok_iff.mp h
  dsimp only at h
  split at h
  · cases h
  · obtain ⟨rfl, -⟩ := Prod.mk.inj (ok.inj h)
    exact wireLen_of_parse hparse

/-- What a record that passed the checks of a transfer is known to be. -/
structure TransferContent (zoneApex : DomainName) (qclass : UInt16) (record : ResourceRecord) :
    Prop where
  cls : record.cls = qclass
  scope : validateRecordScope record zoneApex qclass = .ok ()
  ownerFits : record.owner.wireLen ≤ 255
  rdataFits : record.rdata.length < 65536
  namesFit : ∀ offset, compressibleNameOffset record.rrType = some offset →
    record.rdata.length ≤ offset + 255
  target : record.rrType = dname ∨ record.rrType = cname →
    ∃ name : DomainName, record.rdata = name.toWire ∧ name.wireLen ≤ 255
  soa : record.rrType = soa → ∃ (mname rname : DomainName) (timers : List UInt8),
    record.rdata = mname.toWire ++ rname.toWire ++ timers ∧ mname.wireLen ≤ 255 ∧
    rname.wireLen ≤ 255 ∧
      timers.length = 20

section Reading

variable {zoneApex : DomainName} {qclass : UInt16} {record : ResourceRecord} {message : List UInt8}

theorem soa_of_normalizeSoaRdata {rdataOffset rdataEnd : ℕ} (hend : rdataEnd ≤ message.length)
    (h : normalizeSoaRdata message rdataOffset rdataEnd = .ok rdata) :
    ∃ (mname rname : DomainName) (timers : List UInt8), rdata = mname.toWire ++
      rname.toWire ++ timers ∧
      mname.wireLen ≤ 255 ∧ rname.wireLen ≤ 255 ∧ timers.length = 20 := by
  obtain ⟨⟨mname, consumedMname⟩, hmname, h⟩ := bind_eq_ok_iff.mp h
  obtain ⟨⟨rname, consumedRname⟩, hrname, h⟩ := bind_eq_ok_iff.mp h
  dsimp only at hrname h
  split at h
  · cases h
  · refine ⟨mname, rname, _, (ok.inj h).symm, wireLen_of_parseRdataName hmname,
      wireLen_of_parseRdataName hrname, ?_⟩
    rw [length_take, length_drop]
    omega

theorem length_of_normalizeNameRdata {rdataOffset rdataEnd : ℕ}
    (h : normalizeNameRdata message rdataOffset rdataEnd = .ok rdata) : rdata.length ≤ 255 := by
  obtain ⟨⟨name, nameLen⟩, hname, h⟩ := bind_eq_ok_iff.mp h
  dsimp only at h
  split at h
  · rw [← ok.inj h, name.length_toWire]
    exact wireLen_of_parseRdataName hname
  · cases h

theorem length_of_normalizeMxRdata {rdataOffset rdataEnd : ℕ}
    (h : normalizeMxRdata message rdataOffset rdataEnd = .ok rdata) : rdata.length ≤ 257 := by
  unfold normalizeMxRdata at h
  dsimp only at h
  split at h
  · cases h
  obtain ⟨⟨exchange, exchangeLen⟩, hexchange, h⟩ := bind_eq_ok_iff.mp h
  have hfits := wireLen_of_parseRdataName hexchange
  split at h
  · cases h
  · rw [← ok.inj h, length_append, length_take, exchange.length_toWire]
    omega

theorem length_of_normalizeTransferRdata {rrType : UInt16} {rdataOffset rdlength : ℕ}
    (hlen : rdlength < 65536)
    (h : normalizeTransferRdata message rrType rdataOffset rdlength = .ok rdata) :
    rdata.length < 65536 := by
  unfold normalizeTransferRdata at h
  dsimp only at h
  split at h
  · cases h
  split at h
  · exact lt_of_le_of_lt (length_of_normalizeNameRdata h) (by decide)
  split at h
  · obtain ⟨mname, rname, timers, rfl, hmname, hrname, htimers⟩ :=
      soa_of_normalizeSoaRdata (by omega) h
    rw [length_append, length_append, mname.length_toWire, rname.length_toWire]
    omega
  split at h
  · exact lt_of_le_of_lt (length_of_normalizeMxRdata h) (by decide)
  split at h
  · unfold normalizeTwoNameRdata at h
    obtain ⟨⟨first, firstLen⟩, hfirst, h⟩ := bind_eq_ok_iff.mp h
    obtain ⟨⟨second, secondLen⟩, hsecond, h⟩ := bind_eq_ok_iff.mp h
    have hfits := wireLen_of_parseRdataName hfirst
    have hsecondFits := wireLen_of_parseRdataName hsecond
    dsimp only at h
    split at h
    · cases h
    · rw [← ok.inj h, length_append, first.length_toWire, second.length_toWire]
      omega
  · rw [← ok.inj h, length_take]
    omega

/-- A name that the writer may compress has at most 255 octets and ends the data. -/
theorem length_le_of_compressibleNameOffset {rrType : UInt16} {rdataOffset rdlength : ℕ}
    (h : normalizeTransferRdata message rrType rdataOffset rdlength = .ok rdata)
    (hoffset : compressibleNameOffset rrType = some offset) : rdata.length ≤ offset + 255 := by
  unfold normalizeTransferRdata at h
  dsimp only at h
  split at h
  · cases h
  unfold compressibleNameOffset at hoffset
  split at hoffset
  next htype =>
    rw [if_pos (by rcases htype with rfl | rfl | rfl <;> rfl)] at h
    obtain rfl := Option.some.inj hoffset
    exact length_of_normalizeNameRdata h
  split at hoffset
  next hmx =>
    obtain rfl := Option.some.inj hoffset
    rw [hmx, if_neg (by decide), if_neg (by decide), if_pos rfl] at h
    exact length_of_normalizeMxRdata h
  · cases hoffset

theorem transferContent_of_parseRecord {consumed : ℕ}
    (hparse : parseRecord message offset = .ok (record, consumed))
    (hscope : validateRecordScope record zoneApex qclass = .ok ()) :
    TransferContent zoneApex qclass record := by
  obtain ⟨⟨owner, ownerLen⟩, hown, hparse⟩ := bind_eq_ok_iff.mp hparse
  dsimp only at hparse
  split at hparse
  · cases hparse
  split at hparse
  · cases hparse
  rename_i hlong
  obtain ⟨rdata, hrdata, hparse⟩ := bind_eq_ok_iff.mp hparse
  obtain ⟨rfl, -⟩ := Prod.mk.inj (ok.inj hparse)
  have hchecked := hscope
  have hrdataFits :=
    length_of_normalizeTransferRdata (u16At message (offset + ownerLen + 8)).toNat_lt hrdata
  have hread := hrdata
  unfold validateRecordScope at hscope
  split at hscope
  · cases hscope
  rename_i hclass
  split at hscope
  · cases hscope
  split at hscope
  · cases hscope
  obtain ⟨_, hknown, -⟩ := bind_eq_ok_iff.mp hscope
  unfold normalizeTransferRdata at hrdata
  rw [if_neg hlong] at hrdata
  refine ⟨not_not.mp hclass, hchecked, wireLen_of_parse hown, hrdataFits,
    fun _ => length_le_of_compressibleNameOffset hread, ?_, ?_⟩
  · dsimp only
    rintro (htype | htype)
    · unfold validateKnownRdata at hknown
      rw [htype] at hknown
      obtain ⟨consumed, hconsumed, hknown⟩ := bind_eq_ok_iff.mp hknown
      obtain ⟨name, hat, rfl, hfits⟩ := exists_name_at hconsumed
      split at hknown
      next hwhole => exact ⟨name, (hat.eq_of_length hwhole).symm, hfits⟩
      · cases hknown
    · rw [htype, if_pos (by decide)] at hrdata
      obtain ⟨⟨name, nameLen⟩, hname, hrdata⟩ := bind_eq_ok_iff.mp hrdata
      dsimp only at hrdata
      split at hrdata
      · exact ⟨name, (ok.inj hrdata).symm, wireLen_of_parseRdataName hname⟩
      · cases hrdata
  · dsimp only
    intro htype
    rw [htype, if_neg (by decide), if_pos rfl] at hrdata
    exact soa_of_normalizeSoaRdata (by omega) hrdata

theorem DomainName.wireLen_eq_of_canonicalKey {left right : DomainName}
    (h : left.canonicalKey = right.canonicalKey) : left.wireLen = right.wireLen :=
  wireLen_congr ((canonicalKey_inj _ _).mp h)

/-- What a record is known to be does not depend on the case of its owner or on its time to live. -/
theorem TransferContent.of_owner (h : TransferContent zoneApex qclass record) {owner : DomainName}
    (hown : owner.canonicalKey = record.owner.canonicalKey) (ttl : UInt32) :
    TransferContent zoneApex qclass { record with owner := owner, ttl := ttl } := by
  refine ⟨h.cls, ?_, wireLen_eq_of_canonicalKey hown ▸ h.ownerFits, h.rdataFits, h.namesFit,
    h.target, h.soa⟩
  have hscope := h.scope
  unfold validateRecordScope at hscope ⊢
  have hsame : owner.isEqualOrSubdomainOf zoneApex =
      record.owner.isEqualOrSubdomainOf zoneApex := by
    rw [Bool.eq_iff_iff, isEqualOrSubdomainOf_iff, isEqualOrSubdomainOf_iff,
      (canonicalKey_inj _ _).mp hown]
  rw [hsame]
  exact hscope

theorem TransferContent.normalize (h : TransferContent zoneApex qclass record) :
    TransferContent zoneApex qclass (normalizeRecordOwner record) :=
  h.of_owner (canonicalKey_toAsciiLowercased record.owner) record.ttl

/-- The records of a full transfer so far have passed the checks, and its SOA is among them. -/
structure AxfrProgress.Checked (zoneApex : DomainName) (qclass : UInt16) (progress : AxfrProgress) :
    Prop where
  content : ∀ record ∈ progress.zoneRecords, TransferContent zoneApex qclass record
  serial : ∀ soa, progress.initialSoa = some soa → soa ∈ progress.zoneRecords ∧ isSoa soa = true ∧
    soa.owner.canonicalKey = zoneApex.canonicalKey ∧
    ∃ serial, soaSerial soa.rdata = .ok serial ∧ progress.zoneSerial = some serial

theorem AxfrProgress.Checked.add {progress next : AxfrProgress}
    (h : progress.Checked zoneApex qclass) (hrec : TransferContent zoneApex qclass record)
    (hadd : progress.add zoneApex record = .ok next) :
    next.Checked zoneApex qclass := by
  have happend : ∀ other ∈ progress.zoneRecords ++ [record],
      TransferContent zoneApex qclass other := by
    intro other hother
    rcases mem_append.mp hother with hother | hother
    · exact h.content other hother
    · rw [mem_singleton.mp hother]
      exact hrec
  unfold AxfrProgress.add at hadd
  split at hadd
  next htype =>
    split at hadd
    · split at hadd
      · cases hadd
      rename_i hown
      obtain ⟨serial, hserial, hadd⟩ := bind_eq_ok_iff.mp hadd
      obtain rfl := ok.inj hadd
      refine ⟨happend, ?_⟩
      rintro soa hsoa
      obtain rfl := Option.some.inj hsoa
      exact ⟨mem_append_right _ (mem_singleton_self _), by simpa [isSoa] using htype,
        not_not.mp hown, serial, hserial, rfl⟩
    · split at hadd
      · obtain rfl := ok.inj hadd
        exact ⟨h.content, h.serial⟩
      · cases hadd
  · split at hadd
    · cases hadd
    · obtain rfl := ok.inj hadd
      refine ⟨happend, fun soa hsoa => ?_⟩
      obtain ⟨hmem, hrest⟩ := h.serial soa hsoa
      exact ⟨mem_append_left _ hmem, hrest⟩

theorem checked_axfrAnswers {count : ℕ} {progress : AxfrProgress}
    (h : progress.Checked zoneApex qclass) {final : AxfrProgress × ℕ}
    (hans : axfrAnswers zoneApex qclass message count offset progress = .ok final) :
    final.1.Checked zoneApex qclass := by
  induction count generalizing offset progress with
  | zero => exact ok.inj hans ▸ h
  | succ count ih =>
    unfold axfrAnswers at hans
    split at hans
    · cases hans
    obtain ⟨⟨record, consumed⟩, hparse, hans⟩ := bind_eq_ok_iff.mp hans
    obtain ⟨_, hscope, hans⟩ := bind_eq_ok_iff.mp hans
    obtain ⟨next, hadd, hans⟩ := bind_eq_ok_iff.mp hans
    exact ih (h.add (transferContent_of_parseRecord (mapError_eq_ok_iff.mp hparse) hscope) hadd)
      hans

/-- The records of a full transfer have passed the checks, and one of them is the SOA
of the apex that gives the serial. -/
theorem checked_axfrZoneRecords {qid qtype : UInt16} {records : List ResourceRecord}
    {serial : Option UInt32}
    (h : axfrZoneRecords qid zoneApex qclass qtype messages = .ok (records, serial)) :
    (∀ record ∈ records, TransferContent zoneApex qclass record) ∧
      ∃ soa ∈ records, isSoa soa = true ∧ soa.owner.canonicalKey = zoneApex.canonicalKey ∧
        ∃ number, soaSerial soa.rdata = .ok number ∧ serial = some number := by
  unfold axfrZoneRecords at h
  split at h
  · cases h
  obtain ⟨progress, hfold, h⟩ := bind_eq_ok_iff.mp h
  have hchecked : progress.Checked zoneApex qclass := by
    refine foldlM_invariant (motive := AxfrProgress.Checked zoneApex qclass) hfold
      ⟨by simp, by simp⟩ ?_
    intro state message _ hstate next hnext
    obtain ⟨header, -, hnext⟩ := bind_eq_ok_iff.mp hnext
    obtain ⟨offset, -, hnext⟩ := bind_eq_ok_iff.mp hnext
    obtain ⟨⟨final, stop⟩, hans, hnext⟩ := bind_eq_ok_iff.mp hnext
    obtain ⟨-, -, hnext⟩ := bind_eq_ok_iff.mp hnext
    obtain rfl := ok.inj hnext
    have hsame :
        ({ state with sawResponseQuestion := state.sawResponseQuestion || header.qdcount == 1 } :
        AxfrProgress).Checked zoneApex qclass := ⟨hstate.content, hstate.serial⟩
    exact checked_axfrAnswers hsame hans
  split at h
  · cases h
  rename_i hinitial
  split at h
  · cases h
  obtain ⟨rfl, rfl⟩ := Prod.mk.inj (ok.inj h)
  refine ⟨hchecked.content, ?_⟩
  obtain ⟨soa, hsoa⟩ : ∃ soa, progress.initialSoa = some soa := by
    cases hsoa : progress.initialSoa with
    | none => exact absurd (by rw [hsoa]; rfl) hinitial
    | some soa => exact ⟨soa, rfl⟩
  obtain ⟨hmem, hrest⟩ := hchecked.serial soa hsoa
  exact ⟨soa, hmem, hrest⟩

theorem checked_readIxfrAnswers {count : ℕ}
    (h : ∀ record ∈ answers, TransferContent zoneApex qclass record)
    {final : List ResourceRecord × ℕ}
    (hans : readIxfrAnswers zoneApex qclass message count offset answers = .ok final) :
    ∀ record ∈ final.1, TransferContent zoneApex qclass record := by
  induction count generalizing offset answers with
  | zero => exact ok.inj hans ▸ h
  | succ count ih =>
    obtain ⟨⟨record, consumed⟩, hparse, hans⟩ := bind_eq_ok_iff.mp hans
    obtain ⟨_, hscope, hans⟩ := bind_eq_ok_iff.mp hans
    refine ih ?_ hans
    intro other hother
    rcases mem_append.mp hother with hother | hother
    · exact h other hother
    · rw [mem_singleton.mp hother]
      exact (transferContent_of_parseRecord (mapError_eq_ok_iff.mp hparse)
        (mapError_eq_ok_iff.mp hscope)).normalize

/-- The answers of an incremental transfer have passed the checks. -/
theorem checked_ixfrAnswers {qid : UInt16}
    (h : ixfrAnswers qid zoneApex qclass messages = .ok answers) :
    ∀ record ∈ answers, TransferContent zoneApex qclass record := by
  obtain ⟨⟨read, seen⟩, hfold, h⟩ := bind_eq_ok_iff.mp h
  obtain rfl := ok.inj h
  refine foldlM_invariant
    (motive := fun progress : List ResourceRecord × Bool => ∀ record ∈ progress.1,
    TransferContent zoneApex qclass record) hfold (by simp) ?_
  intro state message _ hstate next hnext
  obtain ⟨header, -, hnext⟩ := bind_eq_ok_iff.mp hnext
  obtain ⟨offset, -, hnext⟩ := bind_eq_ok_iff.mp hnext
  obtain ⟨final, hans, hnext⟩ := bind_eq_ok_iff.mp hnext
  obtain ⟨-, -, hnext⟩ := bind_eq_ok_iff.mp hnext
  obtain rfl := ok.inj hnext
  exact checked_readIxfrAnswers hstate hans

end Reading

section Identity

theorem canonicalRdataIdentity_alias {rrType : UInt16} {name : DomainName}
    (hfits : name.wireLen ≤ 255) (htype : rrType = dname ∨ rrType = cname) :
    canonicalRdataIdentity rrType name.toWire = name.toAsciiLowercased.toWire := by
  have hformat : nameFormat (some 0) rrType = some ⟨.octets 0, 1, some 0⟩ :=
    if_pos (by rcases htype with rfl | rfl <;> decide)
  have h := canonicalRdataIdentity_wire hformat ⟨[], [name], []⟩ ⟨rfl, rfl, by simpa using hfits,
    by simp⟩
  simpa [NamedRdata.wire, NamedRdata.lower] using h

variable {zoneApex : DomainName} {qclass : UInt16}

theorem u32At_append (front back : List UInt8) (pos : ℕ) :
    u32At (front ++ back) (front.length + pos) = u32At back pos := by
  have hget : ∀ n, (front ++ back).getD (front.length + n) 0 = back.getD n 0 := by
    intro n
    rw [getD_eq_getElem?_getD, List.getElem?_append_right (by omega), Nat.add_sub_cancel_left,
      ← getD_eq_getElem?_getD]
  simp only [u32At, Nat.add_assoc, hget]

section Soa

variable {mname rname : DomainName} {timers : List UInt8}

theorem parse_soa_names (hmname : mname.wireLen ≤ 255) (hrname : rname.wireLen ≤ 255) :
    DomainName.parse (mname.toWire ++ rname.toWire ++ timers) 0 = .ok (mname, mname.wireLen) ∧
      DomainName.parse (mname.toWire ++ rname.toWire ++ timers) mname.wireLen = .ok
        (rname, rname.wireLen) := by
  constructor
  · exact parse_of_at hmname ⟨rname.toWire ++ timers, by simp⟩
  · refine parse_of_at hrname ?_
    rw [← mname.length_toWire, append_assoc]
    exact At.at_end_append _ _ _

theorem length_soa (htimers : timers.length = 20) :
    (mname.toWire ++ rname.toWire ++ timers).length = mname.wireLen + rname.wireLen + 20 := by
  rw [length_append, length_append, length_toWire, length_toWire, htimers]

theorem soaSerial_soa (hmname : mname.wireLen ≤ 255) (hrname : rname.wireLen ≤ 255)
    (htimers : timers.length = 20) :
    soaSerial (mname.toWire ++ rname.toWire ++ timers) = .ok (u32At timers 0) := by
  obtain ⟨hfirst, hsecond⟩ := @parse_soa_names mname rname timers hmname hrname
  have hlen := @length_soa mname rname timers htimers
  have hserial : u32At (mname.toWire ++ rname.toWire ++ timers) (mname.wireLen + rname.wireLen) =
      u32At timers 0 := by
    rw [← mname.length_toWire, ← rname.length_toWire, ← length_append]
    exact u32At_append _ timers 0
  rw [soaSerial, hfirst]
  show (orMalformed (DomainName.parse _ mname.wireLen) >>= _) = _
  rw [hsecond]
  show (if mname.wireLen + rname.wireLen + 20 ≠ _ then _ else _) = _
  rw [if_neg (not_not.mpr hlen.symm), hserial]

theorem canonicalRdataIdentity_soa (hmname : mname.wireLen ≤ 255) (hrname : rname.wireLen ≤ 255)
    (htimers : timers.length = 20) :
    canonicalRdataIdentity soa (mname.toWire ++ rname.toWire ++ timers) =
      mname.toAsciiLowercased.toWire ++ rname.toAsciiLowercased.toWire ++ timers := by
  have h := @canonicalRdataIdentity_wire soa _ rfl ⟨[], [mname, rname], timers⟩
    ⟨rfl, rfl, by simp [hmname, hrname], by simpa using htimers⟩
  simpa [NamedRdata.wire, NamedRdata.lower] using h

/-- The timers in the twenty octets behind the names of an SOA. -/
def soaTimersOf : List UInt8 → Option SoaTimers
  | [_, _, _, _, r0, r1, r2, r3, t0, t1, t2, t3, e0, e1, e2, e3, m0, m1, m2, m3] =>
    some ⟨fromBe32 r0 r1 r2 r3, fromBe32 t0 t1 t2 t3, fromBe32 e0 e1 e2 e3, fromBe32 m0 m1 m2 m3⟩
  | _ => none

theorem soaTimersFromRdata_soa (hmname : mname.wireLen ≤ 255) (hrname : rname.wireLen ≤ 255) :
    soaTimersFromRdata (mname.toWire ++ rname.toWire ++ timers) = soaTimersOf timers := by
  obtain ⟨hfirst, hsecond⟩ := @parse_soa_names mname rname timers hmname hrname
  have hdrop : (mname.toWire ++ rname.toWire ++ timers).drop (mname.wireLen + rname.wireLen) =
      timers := by
    rw [← mname.length_toWire, ← rname.length_toWire, ← length_append, drop_left]
  rw [soaTimersFromRdata, hfirst]
  dsimp only
  rw [hsecond]
  dsimp only
  rw [hdrop]
  rfl

end Soa

/-- SOA records with one identity have the same serial and the same timers. -/
theorem soa_eq_of_identity {left right : ResourceRecord}
    (hleft : TransferContent zoneApex qclass left)
    (hright : TransferContent zoneApex qclass right) (hleftType : left.rrType = soa)
    (hrightType : right.rrType = soa)
    (h : canonicalRdataIdentity left.rrType left.rdata =
      canonicalRdataIdentity right.rrType right.rdata) :
    soaSerial left.rdata = soaSerial right.rdata ∧
      soaTimersFromRdata left.rdata = soaTimersFromRdata right.rdata := by
  obtain ⟨mname, rname, timers, hrdata, hmname, hrname, htimers⟩ := hleft.soa hleftType
  obtain ⟨mname', rname', timers', hrdata', hmname', hrname', htimers'⟩ := hright.soa hrightType
  rw [hleftType, hrightType, hrdata, hrdata', canonicalRdataIdentity_soa hmname hrname htimers,
    canonicalRdataIdentity_soa hmname' hrname' htimers'] at h
  obtain rfl : timers = timers' := (append_inj' h (htimers.trans htimers'.symm)).2
  rw [hrdata, hrdata', soaSerial_soa hmname hrname htimers, soaSerial_soa hmname' hrname' htimers',
    soaTimersFromRdata_soa hmname hrname, soaTimersFromRdata_soa hmname' hrname']
  exact ⟨rfl, rfl⟩

end Identity

end BoronDns
