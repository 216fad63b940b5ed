import BoronDns.NameKey

/-!
Resource records and RRsets, with the numeric codes of the types, classes and
response codes the server gives a meaning to. An RRset is stored under its
canonical owner key, type and class.
-/

namespace BoronDns

namespace RecordType

def a : UInt16 := 1
def ns : UInt16 := 2
def cname : UInt16 := 5
def soa : UInt16 := 6
def ptr : UInt16 := 12
def hinfo : UInt16 := 13
def mx : UInt16 := 15
def txt : UInt16 := 16
def aaaa : UInt16 := 28
def srv : UInt16 := 33
def naptr : UInt16 := 35
def dname : UInt16 := 39
def opt : UInt16 := 41
def ds : UInt16 := 43
def rrsig : UInt16 := 46
def nsec : UInt16 := 47
def dnskey : UInt16 := 48
def nsec3 : UInt16 := 50
def nsec3Param : UInt16 := 51
def tlsa : UInt16 := 52
def svcb : UInt16 := 64
def https : UInt16 := 65
def tkey : UInt16 := 249
def tsig : UInt16 := 250
def ixfr : UInt16 := 251
def axfr : UInt16 := 252
def uri : UInt16 := 256

/-- The query type that asks for every RRset of a name. -/
def any : UInt16 := 255

end RecordType

def classIn : UInt16 := 1
def classAny : UInt16 := 255

inductive Rcode
  | noError
  | formErr
  | servFail
  | nxDomain
  | notImp
  | refused
  | yxDomain
  | notAuth
  | badCookie
  deriving DecidableEq, Repr

inductive ZoneState
  | loading
  | active
  | expired
  deriving DecidableEq, Repr

inductive AnyResponseMode
  | minimal
  | full
  deriving DecidableEq, Repr

abbrev Rdata := List UInt8

structure ResourceRecord where
  owner : DomainName
  rrType : UInt16
  cls : UInt16
  ttl : UInt32
  rdata : Rdata
  deriving DecidableEq

structure Rrset where
  owner : DomainName
  rrType : UInt16
  cls : UInt16
  ttl : UInt32
  rdatas : List Rdata
  deriving DecidableEq

structure RrsetKey where
  owner : NameKey
  rrType : UInt16
  cls : UInt16
  deriving DecidableEq

namespace Rrset

variable (rrset : Rrset)

def key : RrsetKey := ⟨rrset.owner.canonicalKey, rrset.rrType, rrset.cls⟩

def recordsWithOwner (owner : DomainName) : List ResourceRecord :=
  rrset.rdatas.map fun rdata => ⟨owner, rrset.rrType, rrset.cls, rrset.ttl, rdata⟩

def records : List ResourceRecord := rrset.recordsWithOwner rrset.owner

end Rrset

structure SoaTimers where
  refresh : UInt32
  retry : UInt32
  expire : UInt32
  minimum : UInt32
  deriving DecidableEq

end BoronDns
