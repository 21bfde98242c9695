import Synchronet.Sbbs3.Ars
import Synchronet.Sbbs3.DatRec
import Synchronet.Xpdev.Genwrap

/-!
# User records (userdat.c)

A record of USER.DAT has a column for each field of a user.  The columns of the old password
and of the IP address are used by userdat.c, but sbbsdefs.h does not say where they are: they
are parameters.  The access to the file itself is left out.
-/

namespace Synchronet.Sbbs3

open RecordFile
open Smblib (cstr atoi)
open Xpdev (Str stricmp)

/-! ## The columns -/

def lenName : ℕ := 25
def lenHandle : ℕ := 8
def lenNote : ℕ := 30
def lenComp : ℕ := 30
def lenComment : ℕ := 60
def lenNetmail : ℕ := 60
def lenPass : ℕ := 8
def lenPhone : ℕ := 12
def lenBirth : ℕ := 8
def lenAddress : ℕ := 30
def lenLocation : ℕ := 30
def lenZipcode : ℕ := 10
def lenModem : ℕ := 8
def lenMainCmd : ℕ := 34
def lenXferCmd : ℕ := 40
def lenScanCmd : ℕ := 40
def lenMailCmd : ℕ := 40
def lenCode : ℕ := 8
def lenExtcode : ℕ := lenCode * 2

def uAlias : ℕ := 0
def uName : ℕ := uAlias + lenAlias
def uHandle : ℕ := uName + lenName
def uNote : ℕ := uHandle + lenHandle + 2
def uComp : ℕ := uNote + lenNote
def uComment : ℕ := uComp + lenComp + 2
def uNetmail : ℕ := uComment + lenComment + 2
def uAddress : ℕ := uNetmail + lenNetmail + 2
def uLocation : ℕ := uAddress + lenAddress
def uZipcode : ℕ := uLocation + lenLocation
def uPass : ℕ := uZipcode + lenZipcode + 2
def uPhone : ℕ := uPass + 8
def uBirth : ℕ := uPhone + 12
def uModem : ℕ := uBirth + 8
def uLaston : ℕ := uModem + 8
def uFirston : ℕ := uLaston + 8
def uExpire : ℕ := uFirston + 8
def uPwmod : ℕ := uExpire + 8
def uLogons : ℕ := uPwmod + 8 + 2
def uLtoday : ℕ := uLogons + 5
def uTimeon : ℕ := uLtoday + 5
def uTextra : ℕ := uTimeon + 5
def uTtoday : ℕ := uTextra + 5
def uTlast : ℕ := uTtoday + 5
def uPosts : ℕ := uTlast + 5
def uEmails : ℕ := uPosts + 5
def uFbacks : ℕ := uEmails + 5
def uEtoday : ℕ := uFbacks + 5
def uPtoday : ℕ := uEtoday + 5
def uUlb : ℕ := uPtoday + 5 + 2
def uUls : ℕ := uUlb + 10
def uDlb : ℕ := uUls + 5
def uDls : ℕ := uDlb + 10
def uCdt : ℕ := uDls + 5
def uMin : ℕ := uCdt + 10
def uLevel : ℕ := uMin + 10 + 2
def uFlags1 : ℕ := uLevel + 2
def uTl : ℕ := uFlags1 + 8
def uFlags2 : ℕ := uTl + 2
def uExempt : ℕ := uFlags2 + 8
def uRest : ℕ := uExempt + 8
def uRows : ℕ := uRest + 8 + 2
def uSex : ℕ := uRows + 2
def uMisc : ℕ := uSex + 1
def uOldxedit : ℕ := uMisc + 8
def uLeech : ℕ := uOldxedit + 2
def uCursub : ℕ := uLeech + 2
def uCurxtrn : ℕ := uCursub + 16
def uMainCmd : ℕ := uCurxtrn + 8 + 2
def uXferCmd : ℕ := uMainCmd + lenMainCmd
def uScanCmd : ℕ := uXferCmd + lenXferCmd + 2
def uMailCmd : ℕ := uScanCmd + lenScanCmd
def uFreecdt : ℕ := uMailCmd + lenMailCmd + 2
def uFlags3 : ℕ := uFreecdt + 10
def uFlags4 : ℕ := uFlags3 + 8
def uXedit : ℕ := uFlags4 + 8
def uShell : ℕ := uXedit + 8
def uQwk : ℕ := uShell + 8
def uTmpext : ℕ := uQwk + 8
def uChat : ℕ := uTmpext + 3
def uNsTime : ℕ := uChat + 8
def uProt : ℕ := uNsTime + 8
def uLogontime : ℕ := uProt + 1
def uCurdir : ℕ := uLogontime + 8
def uUnused : ℕ := uCurdir + 16
def uLen : ℕ := uUnused + 4 + 2

/-- The columns that sbbsdefs.h does not place: `U_OLDPASS`, `LEN_OLDPASS`, `U_IPADDR` and
`LEN_IPADDR`. -/
structure Layout where
  uOldpass : ℕ
  lenOldpass : ℕ
  uIpaddr : ℕ
  lenIpaddr : ℕ

/-- A column of the record. -/
inductive Column
  | at (start len : ℕ)
  | oldpass
  | ipaddr
  | ipaddrEnd

namespace Column

def start (L : Layout) : Column → ℕ
  | .at start _ => start
  | .oldpass => L.uOldpass
  | .ipaddr => L.uIpaddr
  | .ipaddrEnd => L.uIpaddr + L.lenIpaddr

def len (L : Layout) : Column → ℕ
  | .at _ len => len
  | .oldpass => L.lenOldpass
  | .ipaddr => L.lenIpaddr
  | .ipaddrEnd => 2

end Column

/-! ## Users -/

/-- The user fields that are kept in a record. -/
structure UserRecord where
  number : UInt16
  uls : UInt16 := 0
  dls : UInt16 := 0
  posts : UInt16 := 0
  emails : UInt16 := 0
  fbacks : UInt16 := 0
  etoday : UInt16 := 0
  ptoday : UInt16 := 0
  timeon : UInt16 := 0
  textra : UInt16 := 0
  logons : UInt16 := 0
  ttoday : UInt16 := 0
  tlast : UInt16 := 0
  ltoday : UInt16 := 0
  xedit : UInt16 := 0
  shell : UInt16 := 0
  alias_ : Str := []
  name : Str := []
  handle : Str := []
  comp : Str := []
  note : Str := []
  address : Str := []
  location : Str := []
  zipcode : Str := []
  pass : Str := []
  birth : Str := []
  phone : Str := []
  modem : Str := []
  ipaddr : Str := []
  netmail : Str := []
  tmpext : Str := []
  comment : Str := []
  cursub : Str := []
  curdir : Str := []
  curxtrn : Str := []
  level : UInt8 := 0
  sex : UInt8 := 0
  rows : UInt8 := 0
  prot : UInt8 := 0
  leech : UInt8 := 0
  misc : UInt64 := 0
  qwk : UInt64 := 0
  chat : UInt64 := 0
  flags1 : UInt64 := 0
  flags2 : UInt64 := 0
  flags3 : UInt64 := 0
  flags4 : UInt64 := 0
  exempt : UInt64 := 0
  rest : UInt64 := 0
  ulb : UInt64 := 0
  dlb : UInt64 := 0
  cdt : UInt64 := 0
  min : UInt64 := 0
  freecdt : UInt64 := 0
  firston : Int32 := 0
  laston : Int32 := 0
  expire : Int32 := 0
  pwmod : Int32 := 0
  nsTime : Int32 := 0
  logontime : Int32 := 0

/-- An internal code, as the configuration program takes it. -/
structure Code where
  text : Str
  ne_nil : text ≠ []
  length_le : text.length ≤ lenCode
  clean : ∀ c ∈ text, endsField c = false ∧ c ≠ 0

/-- The configuration, with the counts as 16-bit numbers. -/
structure Config where
  xedits : List Code := []
  shells : List Code := []
  fcomps : List Str := []
  levelFreecdtperday : List Int32 := List.replicate 100 0
  xedits_lt : xedits.length < 2 ^ 16 := by decide
  shells_lt : shells.length < 2 ^ 16 := by decide

/-- The year, the month and the day of a time in the local time zone. -/
structure Clock where
  now : ℤ
  localtime : ℤ → Option (ℤ × ℤ × ℤ)

/-! ## Writing a record -/

/-- One `putrec`: it fills the column, and behind it `spill` more bytes. -/
structure Write where
  column : Column
  text : Str
  field : Bool := true
  spill : ℕ := 0

def Write.put (L : Layout) (b : List UInt8) (w : Write) : List UInt8 :=
  putrec b (w.column.start L) (w.column.len L + w.spill) w.text

/-- A line end, which belongs to no field. -/
def lineEnd (start : ℕ) : Write := ⟨.at start 2, crlf, false, 0⟩

def textField (start len : ℕ) (text : Str) : Write := ⟨.at start len, text, true, 0⟩

def decField (start len : ℕ) (n : ℕ) : Write := ⟨.at start len, ultoa n 10, true, 0⟩

def hexField (start len : ℕ) (n : ℕ) : Write := ⟨.at start len, ultoa n 16, true, 0⟩

/-- A time as an `ulong`. -/
def timeField (start : ℕ) (t : Int32) : Write := hexField start 8 (t.toInt % 2 ^ 64).toNat

def charField (start : ℕ) (c : UInt8) : Write := ⟨.at start 1, [c], true, 0⟩

variable (L : Layout)

/-- The writes of `putuserdat` in their order. -/
def userWrites (u : UserRecord) (xedit shell : Str) : List Write := [
  ⟨.at uAlias lenAlias, u.alias_, true, 5⟩,
  textField uName lenName u.name,
  textField uHandle lenHandle u.handle,
  lineEnd (uHandle + lenHandle),
  textField uNote lenNote u.note,
  textField uComp lenComp u.comp,
  lineEnd (uComp + lenComp),
  textField uComment lenComment u.comment,
  lineEnd (uComment + lenComment),
  textField uNetmail lenNetmail u.netmail,
  lineEnd (uNetmail + lenNetmail),
  textField uAddress lenAddress u.address,
  textField uLocation lenLocation u.location,
  textField uZipcode lenZipcode u.zipcode,
  lineEnd (uZipcode + lenZipcode),
  textField uPass lenPass u.pass,
  ⟨.oldpass, u.pass, false, 0⟩,
  textField uPhone lenPhone u.phone,
  textField uBirth lenBirth u.birth,
  textField uModem lenModem u.modem,
  ⟨.ipaddr, u.ipaddr, true, 0⟩,
  timeField uLaston u.laston,
  timeField uFirston u.firston,
  timeField uExpire u.expire,
  timeField uPwmod u.pwmod,
  lineEnd (uPwmod + 8),
  decField uLogons 5 u.logons.toNat,
  decField uLtoday 5 u.ltoday.toNat,
  decField uTimeon 5 u.timeon.toNat,
  decField uTextra 5 u.textra.toNat,
  decField uTtoday 5 u.ttoday.toNat,
  decField uTlast 5 u.tlast.toNat,
  decField uPosts 5 u.posts.toNat,
  decField uEmails 5 u.emails.toNat,
  decField uFbacks 5 u.fbacks.toNat,
  decField uEtoday 5 u.etoday.toNat,
  decField uPtoday 5 u.ptoday.toNat,
  lineEnd (uPtoday + 5),
  decField uUlb 10 u.ulb.toNat,
  decField uUls 5 u.uls.toNat,
  decField uDlb 10 u.dlb.toNat,
  decField uDls 5 u.dls.toNat,
  decField uCdt 10 u.cdt.toNat,
  decField uMin 10 u.min.toNat,
  lineEnd (uMin + 10),
  decField uLevel 2 u.level.toNat,
  hexField uFlags1 8 u.flags1.toNat,
  ⟨.at uTl 2, [], false, 0⟩,
  hexField uFlags2 8 u.flags2.toNat,
  hexField uExempt 8 u.exempt.toNat,
  hexField uRest 8 u.rest.toNat,
  lineEnd (uRest + 8),
  decField uRows 2 u.rows.toNat,
  charField uSex u.sex,
  charField uProt u.prot,
  hexField uMisc 8 u.misc.toNat,
  hexField uLeech 2 u.leech.toNat,
  textField uCursub lenExtcode u.cursub,
  textField uCurdir lenExtcode u.curdir,
  textField uCurxtrn 8 u.curxtrn,
  lineEnd (uCurxtrn + 8),
  lineEnd (uPass + lenPass),
  ⟨.ipaddrEnd, crlf, false, 0⟩,
  decField uFreecdt 10 u.freecdt.toNat,
  hexField uFlags3 8 u.flags3.toNat,
  hexField uFlags4 8 u.flags4.toNat,
  textField uXedit 8 xedit,
  textField uShell 8 shell,
  hexField uQwk 8 u.qwk.toNat,
  textField uTmpext 3 u.tmpext,
  hexField uChat 8 u.chat.toNat,
  timeField uNsTime u.nsTime,
  timeField uLogontime u.logontime,
  ⟨.at uUnused (uLen - uUnused - 2), crlf, false, 0⟩,
  lineEnd (uUnused + (uLen - uUnused - 2))]

/-- The record that the writes fill. -/
def userRecord (u : UserRecord) (xedit shell : Str) : List UInt8 :=
  (userWrites u xedit shell).foldl (Write.put L) (List.replicate uLen etx)

/-- The code of the editor of a user. -/
def xeditCode (cfg : Config) (xedit : UInt16) : Option Str :=
  if xedit ≠ 0 then cfg.xedits[xedit.toNat - 1]?.map Code.text else some []

def shellCode (cfg : Config) (shell : UInt16) : Option Str :=
  cfg.shells[shell.toNat]?.map Code.text

/-- `putuserdat` up to the file: the record it writes, `none` where it gives up or leaves the
configuration. -/
def putuserdat (cfg : Config) (u : UserRecord) : Option (List UInt8) :=
  if u.number < 1 then none
  else do
    let xedit ← xeditCode cfg u.xedit
    let shell ← shellCode cfg u.shell
    pure (userRecord L u xedit shell)

/-! ## Reading a record -/

/-- `ahtoul`: a blank ends the number. -/
def ahtoul (str : Str) : ℕ :=
  (str.takeWhile fun c ↦ c ||| 0x20 ≠ 0x20).foldl
    (fun val (c : UInt8) ↦ ((c &&& 0xf).toNat + (c >>> 6 &&& 1).toNat * 9 + val * 16) % 2 ^ 64) 0

/-- `strtoul` for numbers in decimal. -/
def strtoul (str : Str) : ℕ :=
  match str.dropWhile Smblib.isspace with
  | 45 :: rest => (2 ^ 64 - Smblib.digitsValue rest) % 2 ^ 64
  | 43 :: rest => min (Smblib.digitsValue rest) (2 ^ 64 - 1)
  | rest => min (Smblib.digitsValue rest) (2 ^ 64 - 1)

def spin : UInt64 := 0x20

def qwkRetctla : UInt64 := 0x80

/-- `QWK_FILES`, `QWK_ATTACH`, `QWK_EMAIL` and `QWK_DELMAIL`. -/
def qwkDefault : UInt64 := 0x1 ||| 0x100 ||| 0x2 ||| 0x8

/-- `resetdailyuserdat` without the writes. -/
def resetdailyuserdat (cfg : Config) (u : UserRecord) : Option UserRecord :=
  cfg.levelFreecdtperday[u.level.toNat]?.map fun freecdt ↦
    { u with
      ltoday := 0
      etoday := 0
      ptoday := 0
      freecdt := UInt64.ofInt freecdt.toInt
      ttoday := 0
      textra := 0 }

/-- The editor with a code, counted from one. -/
def findXedit (cfg : Config) (str : Str) : UInt16 :=
  let i := cfg.xedits.findIdx fun xedit ↦ stricmp str xedit.text
  let xedit := UInt16.ofNat (i + 1)
  if cfg.xedits.length < xedit.toNat then 0 else xedit

def findShell (cfg : Config) (str : Str) : UInt16 :=
  let i := cfg.shells.findIdx fun shell ↦ stricmp str shell.text
  UInt16.ofNat (if i = cfg.shells.length then 0 else i)

def readRows (str : Str) : UInt8 :=
  let rows := UInt8.ofInt (atoi str)
  if rows ≠ 0 ∧ rows < 10 then 10 else rows

def readNsTime (str : Str) (laston : Int32) : Int32 :=
  let nsTime := Int32.ofNat (ahtoul str)
  if nsTime < 0x20000000 then laston else nsTime

def readMisc (str : Str) (rest : UInt64) : UInt64 :=
  let misc := UInt64.ofNat (ahtoul str)
  if hasBit rest (flag 81) then misc &&& ~~~spin else misc

/-- A first character in front of the blank, or none, stands for an old record. -/
def readQwk (str : Str) (rest : UInt64) : UInt64 :=
  let c := str.getD 0 0
  if c < 32 ∨ 128 ≤ c then
    if hasBit rest (flag 81) then qwkDefault ||| qwkRetctla else qwkDefault
  else UInt64.ofNat (ahtoul str)

def readTmpext (cfg : Config) (str : Str) : Str :=
  match cfg.fcomps with
  | ext :: _ => if str = [] ∨ str = [48] then ext else str
  | [] => str

/-- Whether the times are on one day. -/
def sameDay (clock : Clock) (logontime : Int32) : Bool :=
  match clock.localtime clock.now, clock.localtime logontime.toInt with
  | some nowTm, some logonTm => nowTm = logonTm
  | _, _ => true

variable (cfg : Config) (userdat : List UInt8)

def getText (c : Column) : Str := getrec userdat (c.start L) (c.len L)

def getDec16 (start len : ℕ) : UInt16 := UInt16.ofInt (atoi (getrec userdat start len))

def getDec64 (start : ℕ) : UInt64 := UInt64.ofNat (strtoul (getrec userdat start 10))

def getHex64 (start : ℕ) : UInt64 := UInt64.ofNat (ahtoul (getrec userdat start 8))

def getTime (start : ℕ) : Int32 := Int32.ofNat (ahtoul (getrec userdat start 8))

/-- The fields of a record. -/
def readuser (number : UInt16) : UserRecord :=
  let pass := getText L userdat (.at uPass lenPass)
  let sex := userdat.getD uSex 0
  let prot := userdat.getD uProt 0
  let rest := getHex64 userdat uRest
  { number
    alias_ := getText L userdat (.at uAlias lenAlias)
    name := getText L userdat (.at uName lenName)
    handle := getText L userdat (.at uHandle lenHandle)
    note := getText L userdat (.at uNote lenNote)
    comp := getText L userdat (.at uComp lenComp)
    comment := getText L userdat (.at uComment lenComment)
    netmail := getText L userdat (.at uNetmail lenNetmail)
    address := getText L userdat (.at uAddress lenAddress)
    location := getText L userdat (.at uLocation lenLocation)
    zipcode := getText L userdat (.at uZipcode lenZipcode)
    pass := if pass = [] then getText L userdat .oldpass else pass
    phone := getText L userdat (.at uPhone lenPhone)
    birth := getText L userdat (.at uBirth lenBirth)
    modem := getText L userdat (.at uModem lenModem)
    ipaddr := getText L userdat .ipaddr
    laston := getTime userdat uLaston
    firston := getTime userdat uFirston
    expire := getTime userdat uExpire
    pwmod := getTime userdat uPwmod
    nsTime := readNsTime (getrec userdat uNsTime 8) (getTime userdat uLaston)
    logontime := getTime userdat uLogontime
    logons := getDec16 userdat uLogons 5
    ltoday := getDec16 userdat uLtoday 5
    timeon := getDec16 userdat uTimeon 5
    textra := getDec16 userdat uTextra 5
    ttoday := getDec16 userdat uTtoday 5
    tlast := getDec16 userdat uTlast 5
    posts := getDec16 userdat uPosts 5
    emails := getDec16 userdat uEmails 5
    fbacks := getDec16 userdat uFbacks 5
    etoday := getDec16 userdat uEtoday 5
    ptoday := getDec16 userdat uPtoday 5
    ulb := getDec64 userdat uUlb
    uls := getDec16 userdat uUls 5
    dlb := getDec64 userdat uDlb
    dls := getDec16 userdat uDls 5
    cdt := getDec64 userdat uCdt
    min := getDec64 userdat uMin
    level := UInt8.ofInt (atoi (getrec userdat uLevel 2))
    flags1 := getHex64 userdat uFlags1
    flags2 := getHex64 userdat uFlags2
    flags3 := getHex64 userdat uFlags3
    flags4 := getHex64 userdat uFlags4
    exempt := getHex64 userdat uExempt
    rest
    rows := readRows (getrec userdat uRows 2)
    sex := if sex = 0 then 32 else sex
    prot := if prot < 32 then 32 else prot
    misc := readMisc (getrec userdat uMisc 8) rest
    leech := UInt8.ofNat (ahtoul (getrec userdat uLeech 2))
    cursub := getText L userdat (.at uCursub lenExtcode)
    curdir := getText L userdat (.at uCurdir lenExtcode)
    curxtrn := getText L userdat (.at uCurxtrn 8)
    freecdt := getDec64 userdat uFreecdt
    xedit := findXedit cfg (getrec userdat uXedit 8)
    shell := findShell cfg (getrec userdat uShell 8)
    qwk := readQwk (getrec userdat uQwk 8) rest
    tmpext := readTmpext cfg (getrec userdat uTmpext 3)
    chat := getHex64 userdat uChat }

/-- `parseuserdat`: the counts of a day are reset when the user has not logged on today;
`none` where it gives up, or for a level without free credits. -/
def parseuserdat (clock : Clock) (number : UInt16) : Option UserRecord :=
  if number < 1 then none
  else
    let u := readuser L cfg userdat number
    if (u.ltoday ≠ 0 ∨ u.etoday ≠ 0 ∨ u.ptoday ≠ 0 ∨ u.ttoday ≠ 0) ∧ !sameDay clock u.logontime then
      resetdailyuserdat cfg u
    else some u

end Synchronet.Sbbs3
