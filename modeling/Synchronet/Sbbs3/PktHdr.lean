import Synchronet.Lib.Overlay
import Synchronet.Sbbs3.SbbsEcho

/-!
# Packet headers (sbbsecho.c)

`new_pkthdr` builds the header of a packet and `parse_pkthdr` reads it.  Four types of headers
share the 58 bytes; the reader tells them apart by a capability word, its copy with the bytes
swapped, an auxiliary net and a sub-version.
-/

namespace Synchronet.Sbbs3.Echo

open Overlay
open Xpdev (Str)

/-! ## Layouts -/

namespace Type2

def orignode : ℕ := 0
def destnode : ℕ := 2
def year : ℕ := 4
def month : ℕ := 6
def day : ℕ := 8
def hour : ℕ := 10
def min : ℕ := 12
def sec : ℕ := 14
def pkttype : ℕ := 18
def orignet : ℕ := 20
def destnet : ℕ := 22
def prodcode : ℕ := 24
def sernum : ℕ := 25
def password : ℕ := 26
def origzone : ℕ := 34
def destzone : ℕ := 36

end Type2

namespace Type2Plus

def orignet : ℕ := 20
def auxnet : ℕ := 38
def cwcopy : ℕ := 40
def prodcodeHi : ℕ := 42
def prodrevMinor : ℕ := 43
def cword : ℕ := 44
def origzone : ℕ := 46
def destzone : ℕ := 48
def origpoint : ℕ := 50
def destpoint : ℕ := 52

end Type2Plus

namespace Type22

def origpoint : ℕ := 4
def destpoint : ℕ := 6
def subversion : ℕ := 16
def origdomn : ℕ := 38
def destdomn : ℕ := 46

/-- The length of a domain name in the header. -/
def domnLen : ℕ := 8

end Type22

inductive PktType
  | type2
  | ext
  | plus
  | type22
  deriving DecidableEq

/-- The fields of the time that go into a header. -/
structure Tm where
  year : UInt16
  month : UInt16
  day : UInt16
  hour : UInt16
  min : UInt16
  sec : UInt16

/-- What the configuration says about the packets for a node. -/
structure PktCfg where
  pktType : PktType
  pktpwd : Str

def passLen : ℕ := 8

def sbbsechoProductCode : UInt16 := 0x12ff

/-! ## Writing a header -/

/-- The fields of the date, when there is one. -/
def putDate (tm : Option Tm) (hdr : Bytes) : Bytes :=
  match tm with
  | none => hdr
  | some tm =>
      put16 Type2.sec tm.sec <| put16 Type2.min tm.min <| put16 Type2.hour tm.hour <|
        put16 Type2.day tm.day <| put16 Type2.month tm.month <| put16 Type2.year tm.year hdr

/-- The fields that all types have. -/
def putType2 (orig dest : FidoAddr) (hdr : Bytes) : Bytes :=
  put8 Type2.sernum 2 <| put8 Type2.prodcode sbbsechoProductCode.toUInt8 <|
    put16 Type2.pkttype 2 <| put16 Type2.destnode dest.node <| put16 Type2.destnet dest.net <|
      put16 Type2.destzone dest.zone <| put16 Type2.orignode orig.node <|
        put16 Type2.orignet orig.net <| put16 Type2.origzone orig.zone hdr

def putPassword (pktpwd : Str) (hdr : Bytes) : Bytes :=
  if pktpwd ≠ [] then putStr Type2.password passLen pktpwd hdr else hdr

def putType22 (origDomain destDomain : Str) (hdr : Bytes) : Bytes :=
  putStr Type22.destdomn Type22.domnLen destDomain <|
    putStr Type22.origdomn Type22.domnLen origDomain <| put16 Type22.subversion 2 hdr

/-- The net of a point goes into the auxiliary net. -/
def putPlus (orig : FidoAddr) (hdr : Bytes) : Bytes :=
  put16 Type2Plus.auxnet orig.net
    (if orig.point ≠ 0 then put16 Type2Plus.orignet 0xffff hdr else hdr)

def putExt (orig dest : FidoAddr) (hdr : Bytes) : Bytes :=
  put16 Type2Plus.destpoint dest.point <| put16 Type2Plus.origpoint orig.point <|
    put16 Type2Plus.destzone dest.zone <| put16 Type2Plus.origzone orig.zone <|
      put8 Type2Plus.prodrevMinor 27 <|
        put8 Type2Plus.prodcodeHi (sbbsechoProductCode >>> 8).toUInt8 <|
          put16 Type2Plus.cwcopy 0x0100 <| put16 Type2Plus.cword 0x0001 hdr

variable (zoneDomain : UInt16 → Str)

/-- `new_pkthdr`, at a local time, for a node that the configuration may know. -/
def newPkthdr (tm : Option Tm) (orig dest : FidoAddr) (nodecfg : Option PktCfg) : Bytes :=
  let hdr := putPassword ((nodecfg.map PktCfg.pktpwd).getD [])
    (putType2 orig dest (putDate tm zeros))
  match (nodecfg.map PktCfg.pktType).getD .type2 with
  | .type2 => hdr
  | .type22 => putType22 (zoneDomain orig.zone) (zoneDomain dest.zone) hdr
  | .ext => putExt orig dest hdr
  | .plus => putExt orig dest (putPlus orig hdr)

/-! ## Reading a header -/

def byteSwap16 (x : UInt16) : UInt16 := x >>> 8 ||| x <<< 8

/-- The capability word says that the header has points. -/
def HasCapability (hdr : Bytes) : Prop :=
  get16 hdr Type2Plus.cword = byteSwap16 (get16 hdr Type2Plus.cwcopy) ∧
    get16 hdr Type2Plus.cword &&& 1 ≠ 0

instance (hdr : Bytes) : Decidable (HasCapability hdr) := inferInstanceAs (Decidable (_ ∧ _))

/-- `parse_pkthdr`: the addresses and the type. -/
def parsePkthdr (hdr : Bytes) : Option (FidoAddr × FidoAddr × PktType) :=
  if get16 hdr Type2.pkttype ≠ 2 then none
  else
    let orig : FidoAddr :=
      ⟨get16 hdr Type2.origzone, get16 hdr Type2.orignet, get16 hdr Type2.orignode, 0⟩
    let dest : FidoAddr :=
      ⟨get16 hdr Type2.destzone, get16 hdr Type2.destnet, get16 hdr Type2.destnode, 0⟩
    if HasCapability hdr then
      let orig : FidoAddr := { orig with point := get16 hdr Type2Plus.origpoint }
      let dest : FidoAddr := { dest with point := get16 hdr Type2Plus.destpoint }
      let orig : FidoAddr :=
        if orig.zone = 0 then { orig with zone := get16 hdr Type2Plus.origzone } else orig
      let dest : FidoAddr :=
        if dest.zone = 0 then { dest with zone := get16 hdr Type2Plus.destzone } else dest
      if get16 hdr Type2Plus.auxnet ≠ 0 then
        let orig : FidoAddr :=
          if orig.point ≠ 0 ∧ orig.net = 0xffff then
            { orig with net := get16 hdr Type2Plus.auxnet }
          else orig
        some (orig, dest, .plus)
      else some (orig, dest, .ext)
    else if get16 hdr Type22.subversion = 2 then
      some ({ orig with point := get16 hdr Type22.origpoint },
        { dest with point := get16 hdr Type22.destpoint }, .type22)
    else some (orig, dest, .type2)

/-! ## What is read of what was written -/

section Base

variable (tm : Option Tm) (orig dest : FidoAddr) (pktpwd : Str)

/-- The header of a packet of type 2. -/
def baseHdr : Bytes := putPassword pktpwd (putType2 orig dest (putDate tm zeros))

variable {o : ℕ}

theorem get16_putPassword (hdr : Bytes) (h : o + 2 ≤ 26 ∨ 34 ≤ o) :
    get16 (putPassword pktpwd hdr) o = get16 hdr o := by
  rw [putPassword]
  split
  · exact get16_putStr_of_disjoint _ _ h
  · rfl

/-- The date is in front of the type and behind the nodes. -/
theorem get16_putDate (h : o + 2 ≤ 4 ∨ 16 ≤ o) : get16 (putDate tm zeros) o = 0 := by
  cases tm with
  | none => simp [putDate]
  | some tm =>
      have hfield {p : ℕ} (hp : 4 ≤ p ∧ p ≤ 14) (v : UInt16) (m : Bytes) :
          get16 (put16 p v m) o = get16 m o := get16_put16_of_disjoint _ _ (by omega)
      rw [putDate, hfield (by decide), hfield (by decide), hfield (by decide), hfield (by decide),
        hfield (by decide), hfield (by decide), get16_zeros]

/-- Behind the zones there is nothing. -/
theorem get16_baseHdr_behind (h : 38 ≤ o) : get16 (baseHdr tm orig dest pktpwd) o = 0 := by
  have hfield {p : ℕ} (hp : p + 2 ≤ 38) (v : UInt16) (m : Bytes) :
      get16 (put16 p v m) o = get16 m o := get16_put16_of_disjoint _ _ (by omega)
  have hbyte {p : ℕ} (hp : p + 2 ≤ 38) (v : UInt8) (m : Bytes) :
      get16 (put8 p v m) o = get16 m o := get16_put8_of_disjoint _ _ (by omega)
  rw [baseHdr, get16_putPassword _ _ (by omega), putType2, hbyte (by decide), hbyte (by decide),
    hfield (by decide), hfield (by decide), hfield (by decide), hfield (by decide),
    hfield (by decide), hfield (by decide), hfield (by decide), get16_putDate _ (by omega)]

/-- The fields that all types have are kept up to the date. -/
theorem get16_baseHdr_front (h : o + 2 ≤ 18 ∧ 4 ≤ o) :
    get16 (baseHdr tm orig dest pktpwd) o = get16 (putDate tm zeros) o := by
  have hfield {p : ℕ} (hp : p + 2 ≤ 4 ∨ 18 ≤ p) (v : UInt16) (m : Bytes) :
      get16 (put16 p v m) o = get16 m o := get16_put16_of_disjoint _ _ (by omega)
  have hbyte {p : ℕ} (hp : p + 2 ≤ 4 ∨ 18 ≤ p) (v : UInt8) (m : Bytes) :
      get16 (put8 p v m) o = get16 m o := get16_put8_of_disjoint _ _ (by omega)
  rw [baseHdr, get16_putPassword _ _ (by omega), putType2, hbyte (by decide), hbyte (by decide),
    hfield (by decide), hfield (by decide), hfield (by decide), hfield (by decide),
    hfield (by decide), hfield (by decide), hfield (by decide)]

/-- A header in which the fields that all types have are those of two addresses. -/
structure HasNodes (orig dest : FidoAddr) (hdr : Bytes) : Prop where
  pkttype : get16 hdr Type2.pkttype = 2
  origzone : get16 hdr Type2.origzone = orig.zone
  orignet : get16 hdr Type2.orignet = orig.net
  orignode : get16 hdr Type2.orignode = orig.node
  destzone : get16 hdr Type2.destzone = dest.zone
  destnet : get16 hdr Type2.destnet = dest.net
  destnode : get16 hdr Type2.destnode = dest.node

theorem hasNodes_baseHdr : HasNodes orig dest (baseHdr tm orig dest pktpwd) := by
  constructor <;>
  · rw [baseHdr, get16_putPassword _ _ (by decide), putType2]
    simp (disch := decide) only [get16_put8_of_disjoint, get16_put16_of_disjoint,
      get16_put16_self]

variable {orig dest}

/-- Writing behind the zones, or between the date and the type, keeps the nodes. -/
theorem HasNodes.putStr {hdr : Bytes} (h : HasNodes orig dest hdr) {p n : ℕ} (hp : 38 ≤ p)
    (s : List UInt8) : HasNodes orig dest (putStr p n s hdr) := by
  have hkeep {o : ℕ} (ho : o + 2 ≤ 38) : get16 (Overlay.putStr p n s hdr) o = get16 hdr o :=
    get16_putStr_of_disjoint _ _ (by omega)
  constructor <;> rw [hkeep (by decide)]
  exacts [h.pkttype, h.origzone, h.orignet, h.orignode, h.destzone, h.destnet, h.destnode]

theorem HasNodes.put16 {hdr : Bytes} (h : HasNodes orig dest hdr) {p : ℕ}
    (hp : 4 ≤ p ∧ p ≤ 16 ∨ 38 ≤ p) (v : UInt16) : HasNodes orig dest (put16 p v hdr) := by
  have hkeep {o : ℕ} (ho : o + 2 ≤ 4 ∨ 18 ≤ o ∧ o + 2 ≤ 38) :
      get16 (Overlay.put16 p v hdr) o = get16 hdr o := get16_put16_of_disjoint _ _ (by omega)
  constructor <;> rw [hkeep (by decide)]
  exacts [h.pkttype, h.origzone, h.orignet, h.orignode, h.destzone, h.destnet, h.destnode]

theorem HasNodes.put8 {hdr : Bytes} (h : HasNodes orig dest hdr) {p : ℕ} (hp : 38 ≤ p)
    (v : UInt8) : HasNodes orig dest (put8 p v hdr) := by
  have hkeep {o : ℕ} (ho : o + 2 ≤ 38) : get16 (Overlay.put8 p v hdr) o = get16 hdr o :=
    get16_put8_of_disjoint _ _ (by omega)
  constructor <;> rw [hkeep (by decide)]
  exacts [h.pkttype, h.origzone, h.orignet, h.orignode, h.destzone, h.destnet, h.destnode]

end Base

theorem byteSwap16_join16 (a b : UInt8) :
    byteSwap16 (Words.join16 a.toUInt16 b.toUInt16) = Words.join16 b.toUInt16 a.toUInt16 := by
  have ha := a.toNat_lt
  have hb := b.toNat_lt
  have hx := Words.toNat_join16 a b
  generalize Words.join16 a.toUInt16 b.toUInt16 = x at hx
  have hright : (x >>> 8).toNat = a.toNat := by
    have hdiv : x.toNat >>> 8 = a.toNat := by
      rw [Nat.shiftRight_eq_div_pow, hx]
      omega
    simpa using hdiv
  have hleft : (x <<< 8).toNat = b.toNat <<< 8 := by
    have hmod : x.toNat <<< 8 % 2 ^ 16 = b.toNat <<< 8 := by
      rw [Nat.shiftLeft_eq, Nat.shiftLeft_eq, hx]
      omega
    simpa using hmod
  rw [← UInt16.toNat_inj, Words.toNat_join16, byteSwap16, UInt16.toNat_or, hright, hleft,
    Nat.or_comm, ← Nat.shiftLeft_add_eq_or_of_lt ha, Nat.shiftLeft_eq, Nat.mul_comm]

theorem join16_and_one (a b : UInt8) :
    Words.join16 a.toUInt16 b.toUInt16 &&& 1 ≠ 0 ↔ b.toNat % 2 = 1 := by
  have hbit : (Words.join16 a.toUInt16 b.toUInt16 &&& 1).toNat = b.toNat % 2 := by
    have hone : (1 : UInt16).toNat = 1 := rfl
    rw [UInt16.toNat_and, hone, Nat.and_one_is_mod, Words.toNat_join16]
    omega
  rw [← UInt16.toNat_inj.ne, hbit]
  change b.toNat % 2 ≠ 0 ↔ _
  omega

/-! ## Headers that are read as they were meant -/

/-- An address is carried by headers of a type: without its point by the first one. -/
structure PktType.Carries (t : PktType) (a b : FidoAddr) : Prop where
  zone : b.zone = a.zone
  net : b.net = a.net
  node : b.node = a.node
  point : t ≠ .type2 → b.point = a.point

/-- A name of a domain that makes the capability word and its copy. -/
def LooksCapable (domain : Str) : Prop :=
  domain.getD 7 0 = domain.getD 2 0 ∧ domain.getD 6 0 = domain.getD 3 0 ∧
    (domain.getD 6 0).toNat % 2 = 1

section Types

variable {orig dest : FidoAddr} {hdr : Bytes}

theorem parsePkthdr_of_capable (h : HasNodes orig dest hdr) (hcap : HasCapability hdr)
    (hoz : orig.zone ≠ 0) (hdz : dest.zone ≠ 0) :
    parsePkthdr hdr =
      if get16 hdr Type2Plus.auxnet ≠ 0 then
        some (⟨orig.zone,
          if get16 hdr Type2Plus.origpoint ≠ 0 ∧ orig.net = 0xffff then
            get16 hdr Type2Plus.auxnet else orig.net,
          orig.node, get16 hdr Type2Plus.origpoint⟩,
          ⟨dest.zone, dest.net, dest.node, get16 hdr Type2Plus.destpoint⟩, .plus)
      else some (⟨orig.zone, orig.net, orig.node, get16 hdr Type2Plus.origpoint⟩,
          ⟨dest.zone, dest.net, dest.node, get16 hdr Type2Plus.destpoint⟩, .ext) := by
  rw [parsePkthdr, if_neg (by simp [h.pkttype])]
  simp only [h.origzone, h.orignet, h.orignode, h.destzone, h.destnet, h.destnode, hcap, hoz, hdz,
    if_true, if_false]
  split
  · split <;> rfl
  · rfl

theorem parsePkthdr_of_not_capable (h : HasNodes orig dest hdr) (hcap : ¬HasCapability hdr) :
    parsePkthdr hdr =
      if get16 hdr Type22.subversion = 2 then
        some (⟨orig.zone, orig.net, orig.node, get16 hdr Type22.origpoint⟩,
          ⟨dest.zone, dest.net, dest.node, get16 hdr Type22.destpoint⟩, .type22)
      else some (⟨orig.zone, orig.net, orig.node, 0⟩,
          ⟨dest.zone, dest.net, dest.node, 0⟩, .type2) := by
  rw [parsePkthdr, if_neg (by simp [h.pkttype])]
  simp only [h.origzone, h.orignet, h.orignode, h.destzone, h.destnet, h.destnode, hcap, if_false]

variable (tm : Option Tm) (pktpwd : Str)

theorem parsePkthdr_base :
    parsePkthdr (baseHdr tm orig dest pktpwd) =
      some (⟨orig.zone, orig.net, orig.node, 0⟩, ⟨dest.zone, dest.net, dest.node, 0⟩, .type2) := by
  have hcap : ¬HasCapability (baseHdr tm orig dest pktpwd) := by
    rintro ⟨-, hbit⟩
    rw [get16_baseHdr_behind _ _ _ _ (by decide)] at hbit
    exact hbit rfl
  rw [parsePkthdr_of_not_capable (hasNodes_baseHdr tm orig dest pktpwd) hcap, if_neg]
  rw [get16_baseHdr_front _ _ _ _ (by decide), get16_putDate _ (by decide)]
  decide

/-- The fields behind the zones of a header with points. -/
theorem putExt_fields (hnodes : HasNodes orig dest hdr) (orig' dest' : FidoAddr) :
    HasNodes orig dest (putExt orig' dest' hdr) ∧ HasCapability (putExt orig' dest' hdr) ∧
      get16 (putExt orig' dest' hdr) Type2Plus.origpoint = orig'.point ∧
      get16 (putExt orig' dest' hdr) Type2Plus.destpoint = dest'.point ∧
      get16 (putExt orig' dest' hdr) Type2Plus.auxnet = get16 hdr Type2Plus.auxnet := by
  have hcword : get16 (putExt orig' dest' hdr) Type2Plus.cword = 1 := by
    simp (disch := decide) only [putExt, get16_put8_of_disjoint, get16_put16_of_disjoint,
      get16_put16_self]
  have hcopy : get16 (putExt orig' dest' hdr) Type2Plus.cwcopy = 0x0100 := by
    simp (disch := decide) only [putExt, get16_put8_of_disjoint, get16_put16_of_disjoint,
      get16_put16_self]
  refine ⟨?_, ⟨?_, ?_⟩, ?_, ?_, ?_⟩
  · exact (((((((hnodes.put16 (.inr (by decide)) _).put16 (.inr (by decide)) _).put8
      (by decide) _).put8 (by decide) _).put16 (.inr (by decide)) _).put16
        (.inr (by decide)) _).put16 (.inr (by decide)) _).put16 (.inr (by decide)) _
  · rw [hcword, hcopy]
    decide
  · rw [hcword]
    decide
  all_goals
    simp (disch := decide) only [putExt, get16_put8_of_disjoint, get16_put16_of_disjoint,
      get16_put16_self]

theorem parsePkthdr_ext (hoz : orig.zone ≠ 0) (hdz : dest.zone ≠ 0) :
    parsePkthdr (putExt orig dest (baseHdr tm orig dest pktpwd)) = some (orig, dest, .ext) := by
  obtain ⟨hnodes, hcap, horig, hdest, haux⟩ :=
    putExt_fields (hasNodes_baseHdr tm orig dest pktpwd) orig dest
  rw [get16_baseHdr_behind _ _ _ _ (by decide)] at haux
  rw [parsePkthdr_of_capable hnodes hcap hoz hdz, haux, if_neg (by decide), horig, hdest]

/-- The net of a point is read from the auxiliary net. -/
theorem parsePkthdr_plus (hoz : orig.zone ≠ 0) (hdz : dest.zone ≠ 0) (hon : orig.net ≠ 0)
    (hon' : orig.net ≠ 0xffff) :
    parsePkthdr (putExt orig dest (putPlus orig (baseHdr tm orig dest pktpwd))) =
      some (orig, dest, .plus) := by
  have hbase := hasNodes_baseHdr tm orig dest pktpwd
  have haux : get16 (putPlus orig (baseHdr tm orig dest pktpwd)) Type2Plus.auxnet = orig.net :=
    get16_put16_self _ _ _
  have hnodes : HasNodes { orig with net := if orig.point ≠ 0 then 0xffff else orig.net } dest
      (putPlus orig (baseHdr tm orig dest pktpwd)) := by
    rw [putPlus]
    refine HasNodes.put16 ?_ (.inr (by decide)) _
    split
    · have hkeep {o : ℕ} (ho : o + 2 ≤ 20 ∨ 22 ≤ o) :
          get16 (put16 Type2Plus.orignet 0xffff (baseHdr tm orig dest pktpwd)) o =
            get16 (baseHdr tm orig dest pktpwd) o := get16_put16_of_disjoint _ _ ho
      constructor
      case orignet => exact get16_put16_self _ _ _
      all_goals rw [hkeep (by decide)]
      exacts [hbase.pkttype, hbase.origzone, hbase.orignode, hbase.destzone, hbase.destnet,
        hbase.destnode]
    · exact hbase
  obtain ⟨hnodes, hcap, horig, hdest, haux'⟩ := putExt_fields hnodes orig dest
  rw [parsePkthdr_of_capable hnodes hcap hoz hdz, haux', haux, if_pos hon, horig, hdest]
  by_cases hpoint : orig.point = 0
  · have hnot : ¬orig.point ≠ 0 := not_not.mpr hpoint
    simp only [hnot, false_and, if_false]
  · simp only [ne_eq, hpoint, not_false_eq_true, true_and, if_true]

/-- A domain name may look like a capability word. -/
theorem hasCapability_putType22_iff (origDomain destDomain : Str) (hdr : Bytes) :
    HasCapability (putType22 origDomain destDomain hdr) ↔ LooksCapable origDomain := by
  have hcword : get16 (putType22 origDomain destDomain hdr) Type2Plus.cword =
      Words.join16 (origDomain.getD 7 0).toUInt16 (origDomain.getD 6 0).toUInt16 := by
    rw [putType22, get16_putStr_of_disjoint _ _ (by decide), get16_putStr _ _ (by decide)]
    rfl
  have hcopy : get16 (putType22 origDomain destDomain hdr) Type2Plus.cwcopy =
      Words.join16 (origDomain.getD 3 0).toUInt16 (origDomain.getD 2 0).toUInt16 := by
    rw [putType22, get16_putStr_of_disjoint _ _ (by decide), get16_putStr _ _ (by decide)]
    rfl
  rw [HasCapability, hcword, hcopy, byteSwap16_join16, Words.join16_inj, join16_and_one,
    LooksCapable, and_assoc]

theorem putType22_fields (origDomain destDomain : Str) (hdr : Bytes) {o : ℕ}
    (ho : o + 2 ≤ 16) :
    get16 (putType22 origDomain destDomain hdr) o = get16 hdr o ∧
      get16 (putType22 origDomain destDomain hdr) Type22.subversion = 2 := by
  have hdest : o + 2 ≤ Type22.destdomn := by rw [Type22.destdomn]; omega
  have horig : o + 2 ≤ Type22.origdomn := by rw [Type22.origdomn]; omega
  have hsub : o + 2 ≤ Type22.subversion := ho
  constructor
  · rw [putType22, get16_putStr_of_disjoint _ _ (.inl hdest),
      get16_putStr_of_disjoint _ _ (.inl horig), get16_put16_of_disjoint _ _ (.inl hsub)]
  · rw [putType22, get16_putStr_of_disjoint _ _ (by decide),
      get16_putStr_of_disjoint _ _ (by decide), get16_put16_self]

theorem hasNodes_putType22 (origDomain destDomain : Str) :
    HasNodes orig dest (putType22 origDomain destDomain (baseHdr tm orig dest pktpwd)) :=
  (((hasNodes_baseHdr tm orig dest pktpwd).put16 (.inl (by decide)) _).putStr
    (by decide) _).putStr (by decide) _

/-- The points of a header of type 2.2 are the year and the month. -/
theorem parsePkthdr_type22 (origDomain destDomain : Str) (h : ¬LooksCapable origDomain) :
    parsePkthdr (putType22 origDomain destDomain (baseHdr tm orig dest pktpwd)) =
      some (⟨orig.zone, orig.net, orig.node, (tm.map Tm.year).getD 0⟩,
        ⟨dest.zone, dest.net, dest.node, (tm.map Tm.month).getD 0⟩, .type22) := by
  have hyear : get16 (putDate tm zeros) Type22.origpoint = (tm.map Tm.year).getD 0 := by
    cases tm with
    | none => simp [putDate]
    | some tm =>
        have hself (m : Bytes) : get16 (put16 Type2.year tm.year m) Type22.origpoint = tm.year :=
          get16_put16_self m _ _
        simp (disch := decide) only [putDate, get16_put16_of_disjoint, hself]
        rfl
  have hmonth : get16 (putDate tm zeros) Type22.destpoint = (tm.map Tm.month).getD 0 := by
    cases tm with
    | none => simp [putDate]
    | some tm =>
        have hself (m : Bytes) : get16 (put16 Type2.month tm.month m) Type22.destpoint = tm.month :=
          get16_put16_self m _ _
        simp (disch := decide) only [putDate, get16_put16_of_disjoint, hself]
        rfl
  have hfields {o : ℕ} (ho : o + 2 ≤ 16) :=
    putType22_fields origDomain destDomain (baseHdr tm orig dest pktpwd) ho
  rw [parsePkthdr_of_not_capable (hasNodes_putType22 tm pktpwd _ _)
      (mt (hasCapability_putType22_iff _ _ _).mp h),
    if_pos (hfields (o := 0) (by decide)).2, (hfields (by decide)).1, (hfields (by decide)).1,
    get16_baseHdr_front _ _ _ _ (by decide), get16_baseHdr_front _ _ _ _ (by decide), hyear,
    hmonth]

end Types

/-- A header is read as it was built, but for one of type 2.2: of these, if and only if the
points are the year and the month of the header, and the domain of the origin does not look like
a capability word. -/
theorem parsePkthdr_newPkthdr_iff (zoneDomain : UInt16 → Str) (tm : Option Tm)
    {orig dest : FidoAddr} (hoz : orig.zone ≠ 0) (hdz : dest.zone ≠ 0) (hon : orig.net ≠ 0)
    (hon' : orig.net ≠ 0xffff) (nodecfg : Option PktCfg) (t : PktType)
    (ht : (nodecfg.map PktCfg.pktType).getD .type2 = t) :
    (∃ orig' dest', parsePkthdr (newPkthdr zoneDomain tm orig dest nodecfg) =
        some (orig', dest', t) ∧ t.Carries orig orig' ∧ t.Carries dest dest') ↔
      (t = .type22 → ¬LooksCapable (zoneDomain orig.zone) ∧
        orig.point = (tm.map Tm.year).getD 0 ∧ dest.point = (tm.map Tm.month).getD 0) := by
  have hself (t : PktType) (a : FidoAddr) : t.Carries a a := ⟨rfl, rfl, rfl, fun _ ↦ rfl⟩
  have hbase : putPassword ((nodecfg.map PktCfg.pktpwd).getD [])
      (putType2 orig dest (putDate tm zeros)) =
        baseHdr tm orig dest ((nodecfg.map PktCfg.pktpwd).getD []) := rfl
  rw [newPkthdr, ht, hbase]
  generalize (nodecfg.map PktCfg.pktpwd).getD [] = pktpwd
  cases t with
  | type2 =>
      refine iff_of_true ⟨_, _, parsePkthdr_base tm pktpwd, ?_, ?_⟩ (by simp)
      · exact ⟨rfl, rfl, rfl, fun h ↦ absurd rfl h⟩
      · exact ⟨rfl, rfl, rfl, fun h ↦ absurd rfl h⟩
  | ext =>
      exact iff_of_true ⟨_, _, parsePkthdr_ext tm pktpwd hoz hdz, hself _ _, hself _ _⟩ (by simp)
  | plus =>
      exact iff_of_true
        ⟨_, _, parsePkthdr_plus tm pktpwd hoz hdz hon hon', hself _ _, hself _ _⟩ (by simp)
  | type22 =>
      simp only [forall_const]
      constructor
      · rintro ⟨orig', dest', hparse, horig, hdest⟩
        have hlooks : ¬LooksCapable (zoneDomain orig.zone) := by
          intro hlooks
          rw [parsePkthdr_of_capable (hasNodes_putType22 tm pktpwd _ _)
            ((hasCapability_putType22_iff _ _ _).mpr hlooks) hoz hdz] at hparse
          split at hparse
          · simp at hparse
          · simp at hparse
        rw [parsePkthdr_type22 tm pktpwd _ _ hlooks, Option.some.injEq, Prod.mk.injEq,
          Prod.mk.injEq] at hparse
        obtain ⟨rfl, rfl, -⟩ := hparse
        exact ⟨hlooks, (horig.point (by decide)).symm, (hdest.point (by decide)).symm⟩
      · rintro ⟨hlooks, horig, hdest⟩
        refine ⟨_, _, parsePkthdr_type22 tm pktpwd _ _ hlooks, ?_, ?_⟩
        · exact ⟨rfl, rfl, rfl, fun _ ↦ horig.symm⟩
        · exact ⟨rfl, rfl, rfl, fun _ ↦ hdest.symm⟩

theorem parsePkthdr_newPkthdr_iff_plus :
    ∃ orig' dest', parsePkthdr (newPkthdr (fun _ ↦ []) none ⟨1, 103, 705, 5⟩ ⟨2, 280, 464, 1⟩
        (some ⟨.plus, []⟩)) = some (orig', dest', .plus) ∧
      PktType.plus.Carries ⟨1, 103, 705, 5⟩ orig' ∧ PktType.plus.Carries ⟨2, 280, 464, 1⟩ dest' :=
  (parsePkthdr_newPkthdr_iff (fun _ ↦ []) none (by decide) (by decide) (by decide) (by decide)
    (some ⟨.plus, []⟩) .plus rfl).mpr fun h ↦ nomatch h

/-- The name `fidonet`. -/
def defaultDomain : Str := [102, 105, 100, 111, 110, 101, 116]

/-- The year and the month of a header of type 2.2 are read as points. -/
theorem parsePkthdr_type22_date :
    parsePkthdr (newPkthdr (fun _ ↦ defaultDomain) (some ⟨2018, 3, 14, 12, 0, 0⟩)
      ⟨1, 103, 705, 5⟩ ⟨2, 280, 464, 1⟩ (some ⟨.type22, []⟩)) =
        some (⟨1, 103, 705, 2018⟩, ⟨2, 280, 464, 3⟩, .type22) := by
  decide +kernel

end Synchronet.Sbbs3.Echo
