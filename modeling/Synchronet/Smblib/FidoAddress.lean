import Synchronet.Sbbs3.SeenByLines

/-!
# FidoNet addresses as text (smbstr.c)

`smb_faddrtoa` writes an address in full.  `smb_atofaddr` also reads the abbreviated forms, which
leave out the zone, the net or the point.
-/

namespace Synchronet.Smblib

open Search (idxOf_append_cons drop_append_cons)
open Sbbs3 (digitsValue_append atoi_append digits_ultoa ultoa_ne_nil digitsValue_ultoa)
open Sbbs3.Echo (FidoAddr decimal faddrtoa toUInt16)
open Xpdev (Str isdigit strchr)

/-- The string behind the first `c`. -/
def behindChar (str : Str) (c : UInt8) : Option Str := (strchr str c).map fun i ↦ str.drop (i + 1)

/-- `tmp_addr`, the default system address. -/
def tmpAddr : FidoAddr := ⟨1, 1, 1, 0⟩

/-- `smb_atofaddr`, where no address stands for a null pointer. -/
def smbAtofaddr (sysAddr : Option FidoAddr) (str : Str) : FidoAddr :=
  let sysAddr := sysAddr.getD tmpAddr
  let number (p : Str) : UInt16 := toUInt16 (atoi p)
  let zone := if (behindChar str 58).isSome then number str else sysAddr.zone
  let net := number ((behindChar str 58).getD str)
  -- no such thing as zone 0
  let zone := if zone = 0 then 1 else zone
  { zone
    net := if (behindChar str 47).isNone ∧ zone = sysAddr.zone then sysAddr.net else net
    node := number ((behindChar str 47).getD str)
    point := ((behindChar str 46).map number).getD 0 }

/-! ## Numbers -/

/-- A number that fits in a field, with any number of zeros in front. -/
structure Numeral where
  digits : Str
  ne_nil : digits ≠ []
  isdigit : ∀ c ∈ digits, 48 ≤ c ∧ c ≤ 57
  fits : digitsValue digits < 65536

namespace Numeral

variable (n : Numeral) {c : UInt8} {s : Str}

def value : UInt16 := UInt16.ofNat (digitsValue n.digits)

theorem notMem (hc : ¬(48 ≤ c ∧ c ≤ 57)) : c ∉ n.digits := fun h ↦ hc (n.isdigit c h)

theorem atoi_append (hs : ∀ c ∈ s.head?, ¬(48 ≤ c ∧ c ≤ 57)) :
    toUInt16 (atoi (n.digits ++ s)) = n.value := by
  have hfits := n.fits
  rw [Sbbs3.atoi_append n.ne_nil n.isdigit hs, toUInt16, value]
  apply UInt16.toNat_inj.mp
  simp only [UInt16.toNat_ofNat']
  omega

/-- The text of `%hu`. -/
def ofUInt16 (n : UInt16) : Numeral where
  digits := decimal n
  ne_nil := ultoa_ne_nil _ _
  isdigit := digits_ultoa _
  fits := by
    rw [decimal, digitsValue_ultoa]
    exact n.toNat_lt

@[simp] theorem digits_ofUInt16 (n : UInt16) : (ofUInt16 n).digits = decimal n := rfl

@[simp] theorem value_ofUInt16 (n : UInt16) : (ofUInt16 n).value = n := by
  rw [value, digits_ofUInt16, decimal, digitsValue_ultoa, UInt16.ofNat_toNat]

end Numeral

/-! ## Texts -/

/-- What stands in front of the node. -/
inductive Area
  | here
  | net (net : Numeral)
  | zone (zone net : Numeral)

/-- An address as it is written. -/
structure AddrText where
  area : Area
  node : Numeral
  point : Option Numeral

/-- The point, if there is one. -/
def pointText : Option Numeral → Str
  | none => []
  | some point => 46 :: point.digits

namespace AddrText

variable (t : AddrText) (sys : FidoAddr)

def text : Str :=
  match t.area with
  | .here => t.node.digits ++ pointText t.point
  | .net net => net.digits ++ 47 :: (t.node.digits ++ pointText t.point)
  | .zone zone net =>
      zone.digits ++ 58 :: (net.digits ++ 47 :: (t.node.digits ++ pointText t.point))

/-- A zone that is written is not zero. -/
def HasZone : Prop :=
  match t.area with
  | .zone zone _ => zone.value ≠ 0
  | _ => True

/-- The address that is meant: the zone and the net that are not written are those of `sys`. -/
def addr : FidoAddr where
  zone := match t.area with
    | .zone zone _ => zone.value
    | _ => sys.zone
  net := match t.area with
    | .here => sys.net
    | .net net => net.value
    | .zone _ net => net.value
  node := t.node.value
  point := (t.point.map Numeral.value).getD 0

end AddrText

/-! ## Reading a text -/

theorem behindChar_append {s rest : Str} {c : UInt8} (h : c ∉ s) :
    behindChar (s ++ c :: rest) c = some rest := by
  rw [behindChar, strchr, idxOf_append_cons h, Option.map_some, drop_append_cons]

theorem behindChar_eq_none {s : Str} {c : UInt8} (h : c ∉ s) : behindChar s c = none := by
  rw [behindChar, strchr, List.idxOf?_eq_none_iff.mpr h, Option.map_none]

theorem head_pointText (point : Option Numeral) :
    ∀ c ∈ (pointText point).head?, ¬(48 ≤ c ∧ c ≤ 57) := by
  cases point with
  | none => simp [pointText]
  | some point => simp [pointText]

theorem notMem_pointText (point : Option Numeral) {c : UInt8} (hc : ¬(48 ≤ c ∧ c ≤ 57))
    (hne : c ≠ 46) : c ∉ pointText point := by
  cases point with
  | none => simp [pointText]
  | some point => simp [pointText, hne, point.notMem hc]

theorem behind_point (point : Option Numeral) {front : Str} (h : 46 ∉ front) :
    behindChar (front ++ pointText point) 46 = point.map Numeral.digits := by
  cases point with
  | none => exact behindChar_eq_none (by simpa [pointText] using h)
  | some point => exact behindChar_append h

namespace AddrText

/-- What is written is read, and the rest is taken from the default address. -/
theorem smbAtofaddr_text (t : AddrText) (sysAddr : Option FidoAddr)
    (hsys : (sysAddr.getD tmpAddr).zone ≠ 0) (hzone : t.HasZone) :
    smbAtofaddr sysAddr t.text = t.addr (sysAddr.getD tmpAddr) := by
  obtain ⟨area, node, point⟩ := t
  have hcolon : ¬((48 : UInt8) ≤ 58 ∧ (58 : UInt8) ≤ 57) := by decide
  have hslash : ¬((48 : UInt8) ≤ 47 ∧ (47 : UInt8) ≤ 57) := by decide
  have hdot : ¬((48 : UInt8) ≤ 46 ∧ (46 : UInt8) ≤ 57) := by decide
  have hnode := node.atoi_append (head_pointText point)
  have hpoint : ∀ front : Str, 46 ∉ front →
      ((behindChar (front ++ pointText point) 46).map fun p ↦ toUInt16 (atoi p)) =
        point.map Numeral.value := by
    intro front h
    rw [behind_point point h, Option.map_map]
    congr 1
    funext n
    simpa using n.atoi_append (s := []) (by simp)
  cases area with
  | here =>
      have hcolon' : behindChar (node.digits ++ pointText point) 58 = none :=
        behindChar_eq_none (by
          simp [node.notMem hcolon, notMem_pointText point hcolon (by decide)])
      have hslash' : behindChar (node.digits ++ pointText point) 47 = none :=
        behindChar_eq_none (by
          simp [node.notMem hslash, notMem_pointText point hslash (by decide)])
      simp [smbAtofaddr, text, addr, hcolon', hslash', hsys, hnode, hpoint _ (node.notMem hdot)]
  | net net =>
      have hcolon' : behindChar (net.digits ++ 47 :: (node.digits ++ pointText point)) 58 = none :=
        behindChar_eq_none (by
          simp [net.notMem hcolon, node.notMem hcolon,
            notMem_pointText point hcolon (by decide)])
      have hslash' : behindChar (net.digits ++ 47 :: (node.digits ++ pointText point)) 47 = _ :=
        behindChar_append (net.notMem hslash)
      have hpoint' := hpoint (net.digits ++ 47 :: node.digits)
        (by simp [net.notMem hdot, node.notMem hdot])
      have hnet := net.atoi_append (s := 47 :: (node.digits ++ pointText point)) (by simp)
      simp only [List.append_assoc, List.cons_append] at hpoint'
      simp [smbAtofaddr, text, addr, hcolon', hslash', hsys, hnode, hnet, hpoint']
  | zone zone net =>
      have hcolon' : behindChar
          (zone.digits ++ 58 :: (net.digits ++ 47 :: (node.digits ++ pointText point))) 58 = _ :=
        behindChar_append (zone.notMem hcolon)
      have hslash' : behindChar
          (zone.digits ++ 58 :: net.digits ++ 47 :: (node.digits ++ pointText point)) 47 = _ :=
        behindChar_append (by simp [zone.notMem hslash, net.notMem hslash])
      have hpoint' := hpoint (zone.digits ++ 58 :: (net.digits ++ 47 :: node.digits))
        (by simp [zone.notMem hdot, net.notMem hdot, node.notMem hdot])
      have hnet := net.atoi_append (s := 47 :: (node.digits ++ pointText point)) (by simp)
      have hnumber := zone.atoi_append
        (s := 58 :: (net.digits ++ 47 :: (node.digits ++ pointText point))) (by simp)
      simp only [List.append_assoc, List.cons_append] at hpoint' hslash'
      have hzone' : zone.value ≠ 0 := hzone
      simp [smbAtofaddr, text, addr, hcolon', hslash', hzone', hnode, hnet, hnumber, hpoint']

/-- An address in full. -/
def ofAddr (addr : FidoAddr) : AddrText where
  area := .zone (.ofUInt16 addr.zone) (.ofUInt16 addr.net)
  node := .ofUInt16 addr.node
  point := if addr.point = 0 then none else some (.ofUInt16 addr.point)

theorem text_ofAddr (addr : FidoAddr) : (ofAddr addr).text = faddrtoa addr := by
  by_cases hpoint : addr.point = 0
  · simp [ofAddr, text, pointText, faddrtoa, hpoint]
  · simp [ofAddr, text, pointText, faddrtoa, hpoint]

theorem addr_ofAddr (sys addr : FidoAddr) : (ofAddr addr).addr sys = addr := by
  obtain ⟨zone, net, node, point⟩ := addr
  by_cases hpoint : point = 0
  · simp [ofAddr, AddrText.addr, hpoint]
  · simp [ofAddr, AddrText.addr, hpoint]

end AddrText

/-- An address is read back from its text, and the abbreviated forms are completed with the
default address. -/
theorem smbAtofaddr_reads (sysAddr : Option FidoAddr) (hsys : (sysAddr.getD tmpAddr).zone ≠ 0) :
    (∀ addr : FidoAddr, addr.zone ≠ 0 → smbAtofaddr sysAddr (faddrtoa addr) = addr) ∧
      ∀ t : AddrText, t.HasZone → smbAtofaddr sysAddr t.text = t.addr (sysAddr.getD tmpAddr) := by
  constructor
  · intro addr hzone
    have hfull : (AddrText.ofAddr addr).HasZone := by
      simpa [AddrText.ofAddr, AddrText.HasZone] using hzone
    rw [← AddrText.text_ofAddr, (AddrText.ofAddr addr).smbAtofaddr_text sysAddr hsys hfull,
      AddrText.addr_ofAddr]
  · intro t hzone
    exact t.smbAtofaddr_text sysAddr hsys hzone

/-- `1:103/705.7`, and `705` in the net `1:103`. -/
theorem smbAtofaddr_reads_node :
    smbAtofaddr none (faddrtoa ⟨1, 103, 705, 7⟩) = ⟨1, 103, 705, 7⟩ ∧
      smbAtofaddr (some ⟨1, 103, 1, 0⟩) (AddrText.text ⟨.here, .ofUInt16 705, none⟩) =
        AddrText.addr ⟨.here, .ofUInt16 705, none⟩ ⟨1, 103, 1, 0⟩ :=
  ⟨(smbAtofaddr_reads none (by decide)).1 ⟨1, 103, 705, 7⟩ (by decide),
    (smbAtofaddr_reads (some ⟨1, 103, 1, 0⟩) (by decide)).2 ⟨.here, .ofUInt16 705, none⟩ trivial⟩

end Synchronet.Smblib
