import Synchronet.Lib.LittleEndian
import Mathlib.Data.List.DropRight
import Mathlib.Data.List.Infix

/-!
# Access requirements (chk_ar.cpp)

A compiled requirement is a string of bytes that ends with a zero.  `ar_exp` runs over it
with a pointer, and a parenthesised part is a call of `ar_exp` with the same pointer.
-/

namespace Synchronet.Sbbs3

open LittleEndian

/-! ## Codes (ars_defs.h) -/

@[match_pattern] abbrev arNull : UInt8 := 0
@[match_pattern] abbrev arOr : UInt8 := 1
@[match_pattern] abbrev arNot : UInt8 := 2
@[match_pattern] abbrev arEqual : UInt8 := 3
@[match_pattern] abbrev arBegnest : UInt8 := 4
@[match_pattern] abbrev arEndnest : UInt8 := 5
@[match_pattern] abbrev arLevel : UInt8 := 6
@[match_pattern] abbrev arAge : UInt8 := 7
@[match_pattern] abbrev arBps : UInt8 := 8
@[match_pattern] abbrev arNode : UInt8 := 9
@[match_pattern] abbrev arTleft : UInt8 := 10
@[match_pattern] abbrev arTused : UInt8 := 11
@[match_pattern] abbrev arUser : UInt8 := 12
@[match_pattern] abbrev arTime : UInt8 := 13
@[match_pattern] abbrev arPcr : UInt8 := 14
@[match_pattern] abbrev arFlag1 : UInt8 := 15
@[match_pattern] abbrev arFlag2 : UInt8 := 16
@[match_pattern] abbrev arFlag3 : UInt8 := 17
@[match_pattern] abbrev arFlag4 : UInt8 := 18
@[match_pattern] abbrev arExempt : UInt8 := 19
@[match_pattern] abbrev arRest : UInt8 := 20
@[match_pattern] abbrev arSex : UInt8 := 21
@[match_pattern] abbrev arUdr : UInt8 := 22
@[match_pattern] abbrev arUdfr : UInt8 := 23
@[match_pattern] abbrev arExpire : UInt8 := 24
@[match_pattern] abbrev arCredit : UInt8 := 25
@[match_pattern] abbrev arDay : UInt8 := 26
@[match_pattern] abbrev arAnsi : UInt8 := 27
@[match_pattern] abbrev arRip : UInt8 := 28
@[match_pattern] abbrev arLocal : UInt8 := 29
@[match_pattern] abbrev arGroup : UInt8 := 30
@[match_pattern] abbrev arSub : UInt8 := 31
@[match_pattern] abbrev arLib : UInt8 := 32
@[match_pattern] abbrev arDir : UInt8 := 33
@[match_pattern] abbrev arExpert : UInt8 := 34
@[match_pattern] abbrev arSysop : UInt8 := 35
@[match_pattern] abbrev arQuiet : UInt8 := 36
@[match_pattern] abbrev arMainCmds : UInt8 := 37
@[match_pattern] abbrev arFileCmds : UInt8 := 38
@[match_pattern] abbrev arRandom : UInt8 := 39
@[match_pattern] abbrev arLaston : UInt8 := 40
@[match_pattern] abbrev arLogons : UInt8 := 41
@[match_pattern] abbrev arWip : UInt8 := 42
@[match_pattern] abbrev arSubcode : UInt8 := 43
@[match_pattern] abbrev arDircode : UInt8 := 44
@[match_pattern] abbrev arOs2 : UInt8 := 45
@[match_pattern] abbrev arDos : UInt8 := 46
@[match_pattern] abbrev arWin32 : UInt8 := 47
@[match_pattern] abbrev arUnix : UInt8 := 48
@[match_pattern] abbrev arLinux : UInt8 := 49
@[match_pattern] abbrev arShell : UInt8 := 50
@[match_pattern] abbrev arProt : UInt8 := 51
@[match_pattern] abbrev arGuest : UInt8 := 52
@[match_pattern] abbrev arQnode : UInt8 := 53
@[match_pattern] abbrev arActive : UInt8 := 54
@[match_pattern] abbrev arInactive : UInt8 := 55
@[match_pattern] abbrev arDeleted : UInt8 := 56
@[match_pattern] abbrev arUls : UInt8 := 57
@[match_pattern] abbrev arUlk : UInt8 := 58
@[match_pattern] abbrev arUlm : UInt8 := 59
@[match_pattern] abbrev arDls : UInt8 := 60
@[match_pattern] abbrev arDlk : UInt8 := 61
@[match_pattern] abbrev arDlm : UInt8 := 62
@[match_pattern] abbrev arHost : UInt8 := 63
@[match_pattern] abbrev arIp : UInt8 := 64

/-- What follows the code of an atom: nothing, a byte, a word of two bytes, or a string
with the zero at its end. -/
inductive ArOperand
  | none
  | byte
  | short
  | string
  deriving DecidableEq

/-- The operands as the cases of `ar_exp` step over them. -/
def arOperand : UInt8 → ArOperand
  | arAnsi | arRip | arWip | arLocal | arExpert | arSysop | arGuest | arQnode | arQuiet | arOs2
  | arDos | arWin32 | arUnix | arLinux | arActive | arInactive | arDeleted => .none
  | arBps | arCredit | arUser | arGroup | arSub | arLib | arDir | arExpire | arRandom | arLaston
  | arLogons | arMainCmds | arFileCmds | arTime | arUls | arUlk | arUlm | arDls | arDlk
  | arDlm => .short
  | arSubcode | arDircode | arShell | arProt | arHost | arIp => .string
  | _ => .byte

/-! ## The session -/

/-- The fields of `user_t` that requirements are about. -/
structure User where
  number : UInt16 := 0
  uls : UInt16 := 0
  dls : UInt16 := 0
  posts : UInt16 := 0
  logons : UInt16 := 0
  shell : UInt16 := 0
  comp : List UInt8 := []
  note : List UInt8 := []
  modem : List UInt8 := []
  ipaddr : List UInt8 := []
  cursub : List UInt8 := []
  curdir : List UInt8 := []
  level : UInt8 := 0
  sex : UInt8 := 0
  misc : UInt64 := 0
  flags1 : UInt64 := 0
  flags2 : UInt64 := 0
  flags3 : UInt64 := 0
  flags4 : UInt64 := 0
  exempt : UInt64 := 0
  rest : UInt64 := 0
  ulb : UInt64 := 0
  dlb : UInt64 := 0
  cdt : UInt64 := 0
  freecdt : UInt64 := 0
  laston : ℤ := 0
  expire : ℤ := 0

structure Client where
  protocol : List UInt8
  host : List UInt8
  addr : List UInt8

/-- A group or library with the code of a sub-board or directory in it. -/
structure Area where
  group : UInt16
  code : List UInt8

/-- What the clock and the random numbers give at one moment: the time, its parts in the
local time zone, the age of the user, and a number below the argument. -/
structure Moment where
  time : ℤ := 0
  wday : ℤ := 0
  hour : ℤ := 0
  min : ℤ := 0
  age : UInt32 := 0
  random : UInt32 → UInt32 := fun _ ↦ 0

/-- The state of the session: the user and client that are checked, the configuration,
the moments at which atoms are checked, and whether `100/((float)a/b)` is below a byte. -/
structure Session where
  user : User := {}
  client : Option Client := none
  sysop : Bool := false
  onLocal : Bool := false
  quiet : Bool := false
  curRate : UInt64 := 0
  nodeNum : UInt16 := 0
  subs : List Area := []
  dirs : List Area := []
  shells : List (List UInt8) := []
  cursubnum : UInt32 := 0
  curdirnum : UInt32 := 0
  mainCmds : UInt32 := 0
  xferCmds : UInt32 := 0
  timeleft : UInt64 := 0
  logontime : ℤ := 0
  os2 : Bool := false
  win32 : Bool := false
  unix : Bool := true
  linux : Bool := true
  moment : ℕ → Moment := fun _ ↦ {}
  percentBelow : ℕ → ℕ → UInt8 → Bool := fun a b n ↦ decide (100 * b < n.toNat * a)

/-! ## Strings -/

def isspace (c : UInt8) : Bool := c = 32 || decide (9 ≤ c ∧ c ≤ 13)

def toupper (c : UInt8) : UInt8 := if 97 ≤ c ∧ c ≤ 122 then c - 32 else c

def cString (p : List UInt8) : List UInt8 := p.takeWhile (· ≠ 0)

/-- `findstr_in_string`: the pattern `string` may start with an exclamation mark or an
asterisk and end with a tilde, a caret or an asterisk. -/
def findstrInString (insearchof string : List UInt8) : Bool :=
  let search := ((cString insearchof).take 80).map toupper
  let p := ((cString string).take 255).dropWhile isspace
  if p.head? = some 59 then false
  else
    let found := decide (p.head? = some 33)
    let p := ((if found then p.tail else p).rdropWhile isspace).map toupper
    let c := p.length - 1
    let last := p.getLast?
    if p = [] then found
    else if last = some 126 then found ^^ decide (p.dropLast <:+: search)
    else if last = some 94 ∨ last = some 42 then found ^^ decide (p.dropLast <+: search)
    else if p.head? = some 42 then
      if search.length < c then found
      else found ^^ decide (p.tail = search.drop (search.length - c))
    else found ^^ decide (p = search)

/-! ## Atoms -/

def ansi : UInt64 := 0x2
def rip : UInt64 := 0x8
def wip : UInt64 := 0x200000
def deleted : UInt64 := 0x1
def inactive : UInt64 := 0x40
def expert : UInt64 := 0x80

/-- Whether one of the bits is set. -/
def hasBit (flags bits : UInt64) : Bool := decide (flags &&& bits ≠ 0)

/-- `FLAG`. -/
def flag (c : UInt8) : UInt64 := 1 <<< (c.toUInt64 - 65)

/-- A value is compared with an operand. -/
def meets (equal : Bool) (value operand : ℕ) : Bool :=
  if equal then decide (value = operand) else decide (operand ≤ value)

/-- A set of flags is compared with a flag. -/
def meetsFlag (equal : Bool) (flags : UInt64) (n : UInt8) : Bool :=
  if equal then decide (flags = flag n) else hasBit flags (flag n)

/-- The group of an area is compared with an operand; outside of all areas it is high
enough, but not equal. -/
def meetsGroup (equal : Bool) (areas : List Area) (num : UInt32) (i : ℕ) : Bool :=
  match areas[num.toNat]? with
  | some area => meets equal area.group.toNat i
  | none => !equal

/-- The code of an area is searched for. -/
def meetsCode (codes : List (List UInt8)) (num : ℕ) (str : List UInt8) : Bool :=
  match codes[num]? with
  | some code => findstrInString code str
  | none => false

namespace Session

variable (s : Session)

/-- The atoms without an operand. -/
def noneTest (artype : UInt8) : Bool :=
  match artype with
  | arAnsi => hasBit s.user.misc ansi
  | arRip => hasBit s.user.misc rip
  | arWip => hasBit s.user.misc wip
  | arOs2 => s.os2
  | arWin32 => s.win32
  | arUnix => s.unix
  | arLinux => s.linux
  | arActive => !hasBit s.user.misc (deleted ||| inactive)
  | arInactive => hasBit s.user.misc inactive
  | arDeleted => hasBit s.user.misc deleted
  | arExpert => hasBit s.user.misc expert
  | arSysop => s.sysop
  | arGuest => hasBit s.user.rest (flag 71)
  | arQnode => hasBit s.user.rest (flag 81)
  | arQuiet => s.quiet
  | arLocal => s.onLocal
  -- AR_DOS
  | _ => false

/-- The atoms with a byte; `none` where `ar_exp` has no case. -/
def byteTest (m : Moment) (artype : UInt8) (equal : Bool) (n : UInt8) : Option Bool :=
  match artype with
  | arLevel => some (meets equal s.user.level.toNat n.toNat)
  | arAge => some (meets equal m.age.toNat n.toNat)
  | arDay => some (if equal then decide (m.wday = n.toNat) else decide ((n.toNat : ℤ) ≤ m.wday))
  | arNode => some (meets equal s.nodeNum.toNat n.toNat)
  | arTleft => some (decide (n.toNat ≤ s.timeleft.toNat / 60))
  | arTused => some (decide ((n.toNat : ℤ) ≤ (m.time - s.logontime).tdiv 60))
  | arPcr => some !(decide (s.user.posts < s.user.logons) && (decide (s.user.posts = 0) ||
      s.percentBelow s.user.logons.toNat s.user.posts.toNat n))
  | arUdr =>
      let l := if s.user.dlb = 0 then 1 else s.user.dlb
      some !(decide (s.user.ulb < s.user.dlb) && (decide (s.user.ulb = 0) ||
        s.percentBelow l.toNat s.user.ulb.toNat n))
  | arUdfr =>
      let i := if s.user.dls = 0 then 1 else s.user.dls
      some !(decide (s.user.uls < s.user.dls) && (decide (s.user.uls = 0) ||
        s.percentBelow i.toNat s.user.uls.toNat n))
  | arFlag1 => some (meetsFlag equal s.user.flags1 n)
  | arFlag2 => some (meetsFlag equal s.user.flags2 n)
  | arFlag3 => some (meetsFlag equal s.user.flags3 n)
  | arFlag4 => some (meetsFlag equal s.user.flags4 n)
  | arRest => some (meetsFlag equal s.user.rest n)
  | arExempt => some (meetsFlag equal s.user.exempt n)
  | arSex => some (decide (s.user.sex = n))
  | _ => none

/-- The atoms with a word, which is read as a `short` and extended. -/
def shortTest (m : Moment) (artype : UInt8) (equal : Bool) (i : UInt32) : Option Bool :=
  match artype with
  | arBps => some (meets equal s.curRate.toNat i.toNat)
  | arCredit => some (meets equal (s.user.cdt + s.user.freecdt).toNat (i.toUInt64 * 1024).toNat)
  | arUser => some (meets equal s.user.number.toNat i.toNat)
  | arGroup => some (meetsGroup equal s.subs s.cursubnum i.toNat)
  | arSub => some (meets equal s.cursubnum.toNat i.toNat)
  | arLib => some (meetsGroup equal s.dirs s.curdirnum i.toNat)
  | arDir => some (meets equal s.curdirnum.toNat i.toNat)
  | arExpire => some (decide (s.user.expire ≠ 0) &&
      decide (m.time + i.toNat * (24 * 60 * 60) ≤ s.user.expire))
  | arRandom => some (meets equal (m.random (i + 1)).toNat i.toNat)
  | arLaston => some (decide ((i.toNat : ℤ) ≤ (m.time - s.user.laston).tdiv (24 * 60 * 60)))
  | arLogons => some (meets equal s.user.logons.toNat i.toNat)
  | arMainCmds => some (meets equal s.mainCmds.toNat i.toNat)
  | arFileCmds => some (meets equal s.xferCmds.toNat i.toNat)
  | arTime => some (decide (i.toInt32.toInt ≤ m.hour * 60 + m.min))
  | arUls => some (meets equal s.user.uls.toNat i.toNat)
  | arUlk => some (meets equal (s.user.ulb.toNat / 1024) i.toNat)
  | arUlm => some (meets equal (s.user.ulb.toNat / (1024 * 1024)) i.toNat)
  | arDls => some (meets equal s.user.dls.toNat i.toNat)
  | arDlk => some (meets equal (s.user.dlb.toNat / 1024) i.toNat)
  | arDlm => some (meets equal (s.user.dlb.toNat / (1024 * 1024)) i.toNat)
  | _ => none

/-- The atoms with a string. -/
def stringTest (artype : UInt8) (str : List UInt8) : Option Bool :=
  match artype with
  | arSubcode => some (meetsCode (s.subs.map Area.code) s.cursubnum.toNat str)
  | arDircode => some (meetsCode (s.dirs.map Area.code) s.curdirnum.toNat str)
  | arShell => some (meetsCode s.shells s.user.shell.toNat str)
  | arProt => some (findstrInString (s.client.elim s.user.modem Client.protocol) str)
  | arHost => some (findstrInString (s.client.elim s.user.comp Client.host) str)
  | arIp => some (findstrInString (s.client.elim s.user.note Client.addr) str)
  | _ => none

/-- The word at the pointer as an `uint`. -/
def arShort (p : List UInt8) : UInt32 :=
  (UInt16.ofNat (ofLe [p.headD 0, p.tail.headD 0])).toInt16.toInt32.toUInt32

/-- The `switch` of `ar_exp` on an atom at the `tick`-th moment, whose operand is at `p`. -/
def arTest (tick : ℕ) (artype : UInt8) (equal : Bool) (p : List UInt8) : Option Bool :=
  match arOperand artype with
  | .none => some (s.noneTest artype)
  | .byte => s.byteTest (s.moment tick) artype equal (p.headD 0)
  | .short => s.shortTest (s.moment tick) artype equal (arShort p)
  | .string => s.stringTest artype (cString p)

end Session

/-! ## Requirements -/

/-- The pointer after the `switch` and the end of the round. -/
def arSkip (artype : UInt8) (p : List UInt8) : List UInt8 :=
  match arOperand artype with
  | .none => p.tail
  | .byte => p.tail.tail
  | .short => p.tail.tail.tail
  | .string => (p.tail.dropWhile (· ≠ 0)).tail

/-- A flag before a term. -/
def arFlag (code : UInt8) (p : List UInt8) : Bool × List UInt8 :=
  if p.headD 0 = code then (true, p.tail) else (false, p)

/-- To the next end of a nested part, or the end. -/
def arSkipNest (p : List UInt8) : List UInt8 := p.dropWhile fun b ↦ b ≠ arEndnest ∧ b ≠ 0

/-- The loop of `ar_exp` from `result` on, in at most `n` rounds: the result, how many
moments have passed, and the pointer.  `none` when the bytes end without a zero. -/
def arExpLoop (s : Session) : ℕ → Bool → ℕ → List UInt8 → Option (Bool × ℕ × List UInt8)
  | 0, _, _, _ => none
  | n + 1, result, tick, p =>
      match p with
      | [] => none
      | b :: _ =>
          if b = 0 ∨ b = arEndnest then some (result, tick, p)
          else
            let (or, p) := arFlag arOr p
            let (not, p) := arFlag arNot p
            let (equal, p) := arFlag arEqual p
            if result && or || !result && !or then some (result, tick, p)
            else if p.headD 0 = arBegnest then do
              let (nested, tick, p) ← arExpLoop s n true tick p.tail
              let result := if nested then !not else not
              let p := arSkipNest p
              if p.headD 0 = 0 then some (result, tick, p)
              else arExpLoop s n result tick p.tail
            else
              let artype := p.headD 0
              let result :=
                match s.arTest tick artype equal p.tail with
                | some holds => if holds then !not else not
                | none => result
              arExpLoop s n result (tick + 1) (arSkip artype p)

/-- `chk_ar`.  Each round reads a byte at least. -/
def chkAr (s : Session) : Option (List UInt8) → Option Bool
  | none => some true
  | some ar => (arExpLoop s (ar.length + 1) true 0 ar).map fun r ↦ r.1

end Synchronet.Sbbs3
