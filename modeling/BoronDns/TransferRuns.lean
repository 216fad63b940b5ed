import BoronDns.IncrementalTransfer
import BoronDns.ValidatedZone

/-!
Transfers of a zone taken together. Whatever the primaries send, one response after
the other, the zone that is kept has passed every check; and two full transfers that
deliver the same records, in any order and in any messages, leave the same zone.
-/

namespace BoronDns

open List ZoneSnapshot RecordType
open RecordKey (fromRecord)
open Except (ok bind_eq_ok_iff ok_bind_eq)

section Runs

/-- The messages of one response, to a request for all of the zone or for the differences. -/
inductive TransferMessages
  | axfr (qid : UInt16) (messages : List (List UInt8))
  | ixfr (qid : UInt16) (messages : List (List UInt8))

variable {platform : Platform} (zoneApex : DomainName) (qclass : UInt16)

/-- The zone after a response; one that is refused leaves the zone as it is. -/
def receive (zone : Option (ZoneSnapshot platform)) (identity : ℕ) :
    TransferMessages → Option (ZoneSnapshot platform)
  | .axfr qid messages =>
    match parseAxfrResponse identity qid zoneApex qclass messages with
    | .ok snapshot => some snapshot
    | .error _ => zone
  | .ixfr qid messages =>
    match zone with
    | none => none
    | some current =>
      match parseIxfrResponse identity qid zoneApex qclass current messages with
      | .ok (.updated snapshot) => some snapshot
      | _ => zone

/-- The zone after all responses, each with the number its snapshot would get. -/
def receiveAll (responses : List (ℕ × TransferMessages)) : Option (ZoneSnapshot platform) :=
  responses.foldl (fun zone response => receive zoneApex qclass zone response.1 response.2) none

/-- Along every sequence of responses the zone is missing or validated. -/
theorem receiveAll_validated (responses : List (ℕ × TransferMessages)) :
    (receiveAll zoneApex qclass responses : Option (ZoneSnapshot platform)).elim True
      (Validated zoneApex qclass) := by
  refine List.foldlRecOn (motive := (Option.elim · True (Validated zoneApex qclass)))
    responses _ trivial fun zone hzone response _ => ?_
  unfold receive
  split
  · split
    next hparse => exact validated_of_axfr hparse
    · exact hzone
  · split
    · trivial
    · split
      next hparse => exact validated_of_ixfr hzone hparse
      · exact hzone

end Runs

section Order

variable {platform : Platform} {zoneApex : DomainName} {qclass : UInt16}
  {records others : List ResourceRecord} {left right : ZoneSnapshot platform}

/-- Full transfers of one version leave one zone. -/
theorem Accepted.sameZone (h : Accepted left zoneApex qclass records)
    (hother : Accepted right zoneApex qclass others)
    (hversion : versionOf records = versionOf others) : SameZone left right := by
  obtain ⟨soa, hsoa, hsole, htype, -, serial, hserial, hleft⟩ := h.sole_soa
  obtain ⟨sent, hsent, -, hsentType, -, number, hnumber, hright⟩ := hother.sole_soa
  have hstores : ∀ key, Stores (versionOf records) key (right.rrsets.lookup key) :=
    hversion ▸ hother.stores
  have hkey : fromRecord sent = fromRecord soa :=
    hsole.2.2 _ (hversion ▸ mem_versionOf.mpr ⟨sent, hsent, rfl⟩) hsentType
  have hsame := (soa_eq_of_identity (hother.content sent hsent) (h.content soa hsoa) hsentType htype
    (congrArg RecordKey.rdata hkey)).1
  refine ⟨fun key => (h.stores key).same (hstores key), ?_, ?_⟩
  · rw [hleft, hright, ok.inj (hserial.symm.trans (hsame.symm.trans hnumber))]
  · rw [h.soaTimers, hother.soaTimers, h.originKey, hother.originKey]
    exact soaTimersFromRrsets_eq hsole (DomainName.toAsciiLowercased_idem _) h.stores hstores
      h.source_content hother.source_content _

theorem validateZoneRecordSet_of_perm (hperm : records.Perm others)
    (h : validateZoneRecordSet zoneApex records = .ok ()) :
    validateZoneRecordSet zoneApex others = .ok () := by
  obtain ⟨_, hsoa, h⟩ := bind_eq_ok_iff.mp h
  obtain ⟨_, hns, hcoexist⟩ := bind_eq_ok_iff.mp h
  have hfilter := hperm.filter fun record => record.rrType = soa
  have hothersSoa : validateExactApexSoa zoneApex others = .ok () := by
    unfold validateExactApexSoa at hsoa ⊢
    split at hsoa
    next only honly =>
      rw [honly, singleton_perm] at hfilter
      rw [← hfilter]
      exact hsoa
    · cases hsoa
  have hothersNs : validateApexNs zoneApex others = .ok () := by
    unfold validateApexNs at hns ⊢
    rw [← hperm.any_eq]
    exact hns
  have hothersCoexist :=
    ((validateCnameAndDnameCoexistence_ok_iff ..).mp hcoexist).of_represented fun record hrec =>
    ⟨record, hperm.mem_iff.mpr hrec, rfl, rfl, fun _ => rfl⟩
  rw [validateZoneRecordSet, hothersSoa, hothersNs,
    (validateCnameAndDnameCoexistence_ok_iff ..).mpr hothersCoexist]
  rfl

/-- A response that is read as the records of an accepted full transfer, in another order or cut
into other messages, is accepted and leaves the same zone. -/
theorem parseAxfrResponse_of_perm (h : FullTransfer left zoneApex qclass records) {qid : UInt16}
    {messages : List (List UInt8)} (serial : Option UInt32)
    (hread : axfrZoneRecords qid zoneApex qclass axfr messages = .ok (others, serial))
    (hperm : records.Perm others) (identity : ℕ) : ∃ right : ZoneSnapshot platform,
      parseAxfrResponse identity qid zoneApex qclass messages = .ok right ∧
      SameZone left right := by
  have hleft := h.accepted
  obtain ⟨_, _, _, _, hrecords, hparse⟩ := h
  rw [parseAxfrResponse, parseAxfrResponseWithQuestion, hrecords, ok_bind_eq] at hparse
  obtain ⟨_, hvalid, -⟩ := bind_eq_ok_iff.mp hparse
  have hright : parseAxfrResponse identity qid zoneApex qclass messages =
      .ok (active identity zoneApex serial (rrsetsFromRecords others) : ZoneSnapshot platform) := by
    rw [parseAxfrResponse, parseAxfrResponseWithQuestion, hread, ok_bind_eq]
    dsimp only
    rw [validateZoneRecordSet_of_perm hperm hvalid, ok_bind_eq]
  exact ⟨_, hright, hleft.sameZone (accepted_of_axfr hread hright)
    (toFinset_eq_of_perm _ _ (hperm.map _))⟩

/-- The NS record is sent before or behind the address, in one message or in two. -/
theorem parseAxfrResponse_of_perm_sample : ∃ right : ZoneSnapshot plainPlatform,
    parseAxfrResponse 1 0 sampleApex 1 [responseWire axfr [sampleSoa 2, sampleAddress 300 1],
      responseWire axfr [sampleNs, sampleSoa 2]] = .ok right ∧ SameZone
        (sampleZone 2 sampleTargetRecords) right :=
  parseAxfrResponse_of_perm fullTransfer_sampleTarget (some 2) (by decide +kernel)
    (.cons _ (.swap ..)) 1

end Order

end BoronDns
