import Mathlib.Data.Option.Basic
import Synchronet.Lib.LittleEndian
import Synchronet.Lib.Search
import Synchronet.Xpdev.Genwrap
import Synchronet.Sbbs3.UserNumbers

/-!
# FidoNet messages in packets (sbbsecho.c)

`putfmsg` writes a message to a packet, with the addresses that have seen it and those on its
path in lines of text behind it; `gen_psb` reads the two lists again.  The configuration of a
node and the forms of an origin line are declared in a file that is not part of the sources.
-/

namespace Synchronet.Sbbs3.Echo

open Xpdev (Str)
open Smblib (atoi)

/-! ## Addresses and configuration -/

structure FidoAddr where
  zone : UInt16
  net : UInt16
  node : UInt16
  point : UInt16
  deriving DecidableEq

structure NodeCfg where
  passive : Bool
  localAddr : FidoAddr

/-- The prefix of an origin line: a line end, and text with an asterisk. -/
structure OriginPrefix where
  lineEnd : UInt8
  text : Str
  notMem_cr : 13 ∉ text
  mem_asterisk : 42 ∈ text

def OriginPrefix.word (o : OriginPrefix) : Str := o.lineEnd :: o.text

/-- The configuration, with the addresses of the system, and a look-up of the nodes known to
it. -/
structure Config where
  zoneBlind : Bool
  zoneBlindThreshold : UInt16
  faddr : List FidoAddr
  sysFaddr : FidoAddr
  findnodecfg : FidoAddr → Option NodeCfg
  originPrefixForm1 : OriginPrefix
  originPrefixForm2 : OriginPrefix

/-- A system with the address 1:103/705, that knows of no other ones. -/
def loneConfig : Config where
  zoneBlind := false
  zoneBlindThreshold := 0
  faddr := [⟨1, 103, 705, 0⟩]
  sysFaddr := ⟨1, 103, 705, 0⟩
  findnodecfg := fun _ ↦ none
  originPrefixForm1 := ⟨10, [32, 42, 32, 79, 114, 105, 103, 105, 110, 58, 32], by decide, by decide⟩
  originPrefixForm2 := ⟨13, [32, 42, 32, 79, 114, 105, 103, 105, 110, 58, 32], by decide, by decide⟩

variable (cfg : Config)

def foreignZone (zone1 zone2 : UInt16) : Bool :=
  if cfg.zoneBlind ∧ zone1 ≤ cfg.zoneBlindThreshold ∧ zone2 ≤ cfg.zoneBlindThreshold then false
  else zone1 ≠ zone2

/-- The address under which the system is known to another one. -/
def getsysfaddr (addr : FidoAddr) : FidoAddr :=
  let byNet := if addr.net ≠ 0 then
      cfg.faddr.find? fun a ↦ a.zone = addr.zone ∧ a.net = addr.net
    else none
  let found := (byNet <|> cfg.faddr.find? fun a ↦ a.zone = addr.zone).getD cfg.sysFaddr
  match cfg.findnodecfg addr with
  | some nodecfg => if nodecfg.localAddr.zone ≠ 0 then nodecfg.localAddr else found
  | none => found

structure FmsgHdr where
  toName : Str
  fromName : Str
  subj : Str
  time : Str
  destzone : UInt16
  destnet : UInt16
  destnode : UInt16
  destpoint : UInt16
  origzone : UInt16
  orignet : UInt16
  orignode : UInt16
  origpoint : UInt16
  attr : UInt16
  cost : UInt16

def FmsgHdr.dest (hdr : FmsgHdr) : FidoAddr :=
  ⟨hdr.destzone, hdr.destnet, hdr.destnode, hdr.destpoint⟩

/-- An area for echomail, or none for netmail. -/
structure Area where
  tag : Option Str
  link : List FidoAddr

/-! ## Lines of addresses -/

def seenByTag : Str := [83, 69, 69, 78, 45, 66, 89, 58]

def pathTag : Str := [1, 80, 65, 84, 72, 58]

/-- A number in a format of `%d` or `%hu` for what is not negative. -/
def decimal (n : UInt16) : Str := ultoa n.toNat 10

/-- Where the line of addresses stands that is written: its length, counted from `start` on,
whether there is an address on it, and the net of the last one. -/
structure AddrLine where
  out : Str
  lastlen : ℕ
  netExists : Bool
  net : UInt16

/-- What `seenby` is for the next address. -/
def AddrLine.text (l : AddrLine) (addr : FidoAddr) : Str :=
  if addr.net ≠ l.net ∨ l.netExists = false then
    32 :: decimal addr.net ++ 47 :: decimal addr.node
  else 32 :: decimal addr.node

def AddrLine.put (l : AddrLine) (addr : FidoAddr) : AddrLine :=
  { out := l.out ++ l.text addr
    lastlen := l.lastlen + (l.text addr).length
    netExists := true
    net := addr.net }

def AddrLine.wrap (l : AddrLine) (tag : Str) (start : ℕ) : AddrLine :=
  { l with
    out := l.out ++ 13 :: tag
    lastlen := start
    netExists := false }

@[simp] theorem AddrLine.put_out (l : AddrLine) (addr : FidoAddr) :
    (l.put addr).out = l.out ++ l.text addr := rfl

@[simp] theorem AddrLine.put_lastlen (l : AddrLine) (addr : FidoAddr) :
    (l.put addr).lastlen = l.lastlen + (l.text addr).length := rfl

@[simp] theorem AddrLine.put_net (l : AddrLine) (addr : FidoAddr) :
    (l.put addr).net = addr.net := rfl

@[simp] theorem AddrLine.wrap_out (l : AddrLine) (tag : Str) (start : ℕ) :
    (l.wrap tag start).out = l.out ++ 13 :: tag := rfl

@[simp] theorem AddrLine.wrap_lastlen (l : AddrLine) (tag : Str) (start : ℕ) :
    (l.wrap tag start).lastlen = start := rfl

@[simp] theorem AddrLine.wrap_netExists (l : AddrLine) (tag : Str) (start : ℕ) :
    (l.wrap tag start).netExists = false := rfl

/-- One round of the loops over addresses.  On a new line the address is tried again, and there
is room for it then. -/
def AddrLine.next (tag : Str) (start : ℕ) (l : AddrLine) (addr : FidoAddr) : AddrLine :=
  if l.lastlen + (l.text addr).length < 80 then l.put addr else (l.wrap tag start).put addr

/-- The addresses that the loop over the seen-bys writes. -/
def seenFrom (addr : FidoAddr) (seenbys : List FidoAddr) : List FidoAddr :=
  seenbys.filter fun a ↦ !foreignZone cfg addr.zone a.zone

/-- Those of the loop over the links: they are not passive, and not there yet. -/
def seenLinks (addr : FidoAddr) (links seenbys : List FidoAddr) : List FidoAddr :=
  links.filter fun a ↦
    !(cfg.findnodecfg a).any NodeCfg.passive && !foreignZone cfg addr.zone a.zone &&
      a.point == 0 && !decide (a ∈ seenbys)

/-- Those of the loop over the addresses of the system. -/
def seenAkas (addr : FidoAddr) (seenbys : List FidoAddr) : List FidoAddr :=
  cfg.faddr.filter fun a ↦
    !foreignZone cfg addr.zone a.zone && a.point == 0 && !decide (a ∈ seenbys)

/-- Those of the loop over the path. -/
def pathFrom (addr : FidoAddr) (paths : List FidoAddr) : List FidoAddr :=
  paths.filter fun a ↦ a.net != 0 && !foreignZone cfg addr.zone a.zone && a.point == 0

/-- The three loops that write the seen-bys. -/
def putSeenBys (addr : FidoAddr) (links seenbys : List FidoAddr) : Str :=
  let line := AddrLine.next seenByTag 9
  let l := (seenFrom cfg addr seenbys).foldl line ⟨seenByTag, 9, false, addr.net⟩
  let l := (seenLinks cfg addr links seenbys).foldl line l
  ((seenAkas cfg addr seenbys).foldl line l).out

/-- Whether the own address goes behind the path. -/
def addsPath (sysaddr : FidoAddr) (paths : List FidoAddr) : Prop :=
  let lasthop := (pathFrom cfg sysaddr paths).getLast?.getD ⟨0, 0, 0, 0⟩
  sysaddr.net ≠ 0 ∧ sysaddr.point = 0 ∧
    (paths = [] ∨ lasthop.net ≠ sysaddr.net ∨ lasthop.node ≠ sysaddr.node)

instance (sysaddr : FidoAddr) (paths : List FidoAddr) : Decidable (addsPath cfg sysaddr paths) :=
  inferInstanceAs (Decidable (_ ∧ _ ∧ _))

/-- The loop over the path, and the own address behind it. -/
def putPaths (sysaddr : FidoAddr) (paths : List FidoAddr) : Str :=
  let l := (pathFrom cfg sysaddr paths).foldl (AddrLine.next pathTag 7)
    ⟨13 :: pathTag, 7, false, sysaddr.net⟩
  if addsPath cfg sysaddr paths then
    if l.lastlen + (l.text sysaddr).length < 80 then l.out ++ l.text sysaddr
    else l.out ++ 13 :: pathTag ++ l.text sysaddr
  else l.out

/-! ## Messages -/

/-- A number in the format `%d` of an `int16_t`. -/
def signedDecimal (n : UInt16) : Str :=
  if n < 32768 then decimal n else 45 :: ultoa (65536 - n.toNat) 10

/-- `smb_faddrtoa` -/
def faddrtoa (addr : FidoAddr) : Str :=
  decimal addr.zone ++ 58 :: decimal addr.net ++ 47 :: decimal addr.node ++
    if addr.point ≠ 0 then 46 :: decimal addr.point else []

/-- `fwrite_intl_control_line` -/
def intlControlLine (hdr : FmsgHdr) : Str :=
  [1, 73, 78, 84, 76, 32] ++ decimal hdr.destzone ++ 58 :: decimal hdr.destnet ++
    47 :: decimal hdr.destnode ++ 32 :: decimal hdr.origzone ++ 58 :: decimal hdr.orignet ++
    47 :: decimal hdr.orignode ++ [13]

/-- `fwrite_via_control_line`; `stamp` has the time and the version of the program. -/
def viaControlLine (stamp : Str) (addr : FidoAddr) : Str :=
  [1, 86, 105, 97, 32] ++ faddrtoa addr ++ [32, 64] ++ stamp ++ [13]

def areaWord : Str := [65, 82, 69, 65, 58]

def intlWord : Str := [1, 73, 78, 84, 76, 32]

/-- A line end behind a text without one. -/
def closeLine (fbuf : Str) : Str :=
  if fbuf ≠ [] ∧ fbuf.getLast? ≠ some 13 then fbuf ++ [13] else fbuf

/-- What `putfmsg` writes in front of the addresses. -/
def bodyText (hdr : FmsgHdr) (area : Area) (fbuf : Str) : Str :=
  match area.tag with
  | none =>
      (if intlWord <:+: fbuf then [] else intlControlLine hdr) ++ closeLine fbuf
  | some tag =>
      (if areaWord <+: fbuf then [] else areaWord ++ tag ++ [13]) ++ closeLine fbuf

/-- The body of the message that `putfmsg` writes. -/
def messageText (stamp : Str) (hdr : FmsgHdr) (area : Area) (fbuf : Str)
    (seenbys paths : List FidoAddr) : Str :=
  let addr := getsysfaddr cfg hdr.dest
  bodyText hdr area fbuf ++
    match area.tag with
    | none => viaControlLine stamp addr
    | some _ =>
        if foreignZone cfg addr.zone hdr.destzone then
          seenByTag ++ 32 :: signedDecimal hdr.destnet ++ 47 :: signedDecimal hdr.destnode ++ [13]
        else putSeenBys cfg addr area.link seenbys ++ putPaths cfg addr paths ++ [13]

/-- The length of the field for the time. -/
def timeLen : ℕ := 20

/-- The fields of fixed length, a `fpkdmsg_t`. -/
def pkdmsg (addr : FidoAddr) (hdr : FmsgHdr) : Str :=
  let time := hdr.time.take (timeLen - 1)
  LittleEndian.le 2 2 ++ LittleEndian.le 2 addr.node.toNat ++
    LittleEndian.le 2 hdr.destnode.toNat ++ LittleEndian.le 2 addr.net.toNat ++
    LittleEndian.le 2 hdr.destnet.toNat ++ LittleEndian.le 2 hdr.attr.toNat ++
    LittleEndian.le 2 hdr.cost.toNat ++ time ++ List.replicate (timeLen - time.length) 0

/-- `putfmsg`: what it writes to a packet. -/
def putfmsg (stamp fbuf : Str) (hdr : FmsgHdr) (area : Area) (seenbys paths : List FidoAddr) :
    Str :=
  pkdmsg (getsysfaddr cfg hdr.dest) hdr ++ hdr.toName ++ 0 :: hdr.fromName ++ 0 :: hdr.subj ++
    0 :: messageText cfg stamp hdr area fbuf seenbys paths ++ [0]

/-! ## Reading the addresses -/

def toUInt16 (i : ℤ) : UInt16 := UInt16.ofNat (i % 65536).toNat

/-- What a word behind a tag does to the address that was read last. -/
def readAddr (zone : UInt16) (addr : FidoAddr) (word : Str) : FidoAddr :=
  let addr : FidoAddr :=
    match word.idxOf? 58 with
    | some i =>
        { addr with
          zone := toUInt16 (atoi word)
          net := toUInt16 (atoi (word.drop (i + 1))) }
    | none => if 47 ∈ word then { addr with net := toUInt16 (atoi word) } else addr
  let addr : FidoAddr :=
    match word.idxOf? 47 with
    | some i => { addr with node := toUInt16 (atoi (word.drop (i + 1))) }
    | none => { addr with node := toUInt16 (atoi word) }
  let addr : FidoAddr :=
    match word.idxOf? 46 with
    | some i => { addr with point := toUInt16 (atoi (word.drop (i + 1))) }
    | none => addr
  if addr.zone = 0 then { addr with zone := zone } else addr

/-- The words of a line, each with one space behind it at most. -/
def words : Str → List Str
  | [] => []
  | c :: line =>
      let word := (c :: line).takeWhile (· ≠ 32)
      word :: words (line.drop word.length)
  termination_by line => line.length
  decreasing_by simp only [List.length_drop, List.length_cons]; omega

/-- The addresses of a line, and the last of them. -/
def readAddrs (zone : UInt16) (addr : FidoAddr) : List Str → List FidoAddr × FidoAddr
  | [] => ([], addr)
  | word :: rest =>
      let addr := readAddr zone addr word
      let r := readAddrs zone addr rest
      (addr :: r.1, r.2)

/-- The line behind a tag, of which 100 bytes are read at most. -/
def lineOf (text : Str) : Str := (text.take 100).takeWhile (· ≠ 13)

inductive Tag
  | seenBy
  | path

/-- The next line with the tag.  A SEEN-BY line may follow an LF when none follows a CR. -/
def Tag.find : Tag → Str → Option Str
  | .seenBy, text =>
      Search.find (13 :: seenByTag) text <|> Search.find (10 :: seenByTag) text
  | .path, text => Search.find pathTag text

/-- How many bytes are skipped for a tag. -/
def Tag.skip : Tag → ℕ
  | .seenBy => 10
  | .path => 7

theorem Tag.length_find {tag : Tag} {text rest : Str} (h : tag.find text = some rest) :
    rest.length ≤ text.length := by
  cases tag with
  | seenBy =>
      rcases (Option.orElse_eq_some _ _ _).mp h with hcr | ⟨-, hlf⟩
      · exact (Search.find_suffix hcr).1.length_le
      · exact (Search.find_suffix hlf).1.length_le
  | path => exact (Search.find_suffix h).1.length_le

/-- The two loops of `gen_psb`, at a line with the tag; `none` when the tag ends the text and the
loop reads behind it. -/
def psbLoop (tag : Tag) (zone : UInt16) (addr : FidoAddr) (p : Str) : Option (List FidoAddr) :=
  if _hlen : p.length < tag.skip then none
  else
    let r := readAddrs zone addr (words (lineOf (p.drop tag.skip)))
    match _hnext : tag.find (p.drop tag.skip) with
    | none => some r.1
    | some p' => (psbLoop tag zone r.2 p').map (r.1 ++ ·)
  termination_by p.length
  decreasing_by
    have := Tag.length_find _hnext
    rw [List.length_drop] at this
    have hskip : 0 < tag.skip := by cases tag <;> decide
    omega

/-- The list of addresses behind the tag. -/
def genList (tag : Tag) (zone : UInt16) (fbuf : Str) : Option (List FidoAddr) :=
  match tag.find fbuf with
  | none => some []
  | some p => psbLoop tag zone ⟨0, 0, 0, 0⟩ p

/-- The text from the first origin line on, or all of it. -/
def fromOrigin (inbuf : Str) : Str :=
  ((Search.find cfg.originPrefixForm1.word inbuf) <|>
    (Search.find cfg.originPrefixForm2.word inbuf)).getD inbuf

/-- `gen_psb`: the seen-bys and the path. -/
def genPsb (inbuf : Str) (zone : UInt16) : Option (List FidoAddr × List FidoAddr) := do
  let fbuf := fromOrigin cfg inbuf
  let seenbys ← genList .seenBy zone fbuf
  let paths ← genList .path zone fbuf
  return (seenbys, paths)

end Synchronet.Sbbs3.Echo
