import Synchronet.Lib.CheckedLoop
import Synchronet.Sbbs3.SbbsEcho

/-!
# Importing FidoNet messages (sbbsecho.c, rechocfg.c)

`fmsgtosmsg` goes through the text of a message: kludge lines become header fields, the rest is
copied to the body or, from the tear line or the origin line on, to the tail.  `getzpt` looks for
the kludge lines with addresses in what was read of a stored message.  A pointer is the memory
from where it points on; what is read or written outside its memory has no result.
-/

namespace Synchronet.Sbbs3.Echo.Fmsg

open Smblib (cstr isspace)
open Xpdev (Str isdigit stricmp strnicmp strchr)

/-! ## Strings in memory -/

/-- Whether `strncmp` with the length of the second string is zero. -/
def strncmp : List UInt8 → Str → Option Bool
  | _, [] => some true
  | [], _ :: _ => none
  | c :: p, d :: s => if c = d then strncmp p s else some false

/-- What stands behind a number. -/
def behindNumber (p : List UInt8) : List UInt8 :=
  match p.dropWhile isspace with
  | [] => []
  | c :: p => (if c = 45 ∨ c = 43 then p else c :: p).dropWhile isdigit

/-- `atoi` reads the byte behind the number. -/
def atoi (p : List UInt8) : Option ℤ :=
  if behindNumber p = [] then none else some (Smblib.atoi p)

def strlen (p : List UInt8) : Option ℕ := if 0 ∈ p then some (cstr p).length else none

/-- `"ALL"` -/
def all : Str := [65, 76, 76]

/-- `atofaddr` for the string it has copied; `cleanstr` cuts it off at the first blank. -/
def faddr (s : Str) : FidoAddr :=
  let str := s.takeWhile (32 < ·)
  if stricmp str all then ⟨0xffff, 0xffff, 0xffff, 0xffff⟩
  else
    let number (p : Str) : UInt16 := UInt16.ofInt (Smblib.atoi p)
    let part (p : Str) : UInt16 := if strnicmp p all then 0xffff else number p
    let behind (c : UInt8) : Option Str := (strchr str c).map fun i ↦ str.drop (i + 1)
    let zone := match behind 58 with
      | some _ => if strnicmp str (all ++ [58]) then 0xffff else number str
      | none => 1
    let net := match behind 58 with
      | some p => part p
      | none => number str
    { zone := if zone = 0 then 1 else zone
      net := if behind 47 = none ∧ net = 0 then 1 else net
      node := match behind 47 with
        | some p => part p
        | none => number str
      point := match behind 46 with
        | some p => part p
        | none => 0 }

/-- `atofaddr`, which copies at most fifty bytes. -/
def atofaddr (p : List UInt8) : Option FidoAddr :=
  if 0 ∈ p.take 50 ∨ 50 ≤ p.length then some (faddr (cstr (p.take 50))) else none

/-- The two characters in front of `p`, if there are as many. -/
def twoDigits (p : List UInt8) : Option Str := do
  pure (if (← strlen p) ≥ 2 then p.take 2 else [])

/-- `fmsgzone` -/
def fmsgzone (p : List UInt8) : Option Int16 :=
  match p with
  | [] => none
  | c :: rest => do
      let p := if c = 45 then rest else c :: rest
      let hr ← twoDigits p
      let min ← twoDigits (p.drop 2)
      let val := Int16.ofInt (Smblib.atoi hr * 60 + Smblib.atoi min)
      pure (if c = 45 then -val else val)

/-! ## Kludge lines -/

inductive HfieldType
  | fidoArea | fidoCtrl | fidoMsgid | fidoReplyid | fidoFlags | fidoPath | fidoPid | fidoTid
  | fidoCharset | fidoSeenby | smbEditor | smbColumns
  deriving DecidableEq

/-- What is done with a kludge line: the points and addresses of it, a header field with or
without what is not printable at its end, the time zone, the number of columns. -/
inductive Kludge
  | topt | fmpt | intl
  | field (type : HfieldType) (trim : Bool)
  | zone | cols
  deriving DecidableEq

/-- The kludge lines that `fmsgtosmsg` knows, in the order in which it tries them. -/
def kludges : List (Str × Kludge) :=
  -- "TOPT ", "FMPT ", "INTL "
  [([84, 79, 80, 84, 32], .topt), ([70, 77, 80, 84, 32], .fmpt), ([73, 78, 84, 76, 32], .intl),
    -- "MSGID:", "REPLY:", "FLAGS ", "FLAGS:"
    ([77, 83, 71, 73, 68, 58], .field .fidoMsgid false),
    ([82, 69, 80, 76, 89, 58], .field .fidoReplyid false),
    ([70, 76, 65, 71, 83, 32], .field .fidoFlags true),
    ([70, 76, 65, 71, 83, 58], .field .fidoFlags true),
    -- "PATH:", "PID:", "TID:", "NOTE:"
    ([80, 65, 84, 72, 58], .field .fidoPath true), ([80, 73, 68, 58], .field .fidoPid true),
    ([84, 73, 68, 58], .field .fidoTid true), ([78, 79, 84, 69, 58], .field .smbEditor true),
    -- "CHRS:", "CHARSET:"
    ([67, 72, 82, 83, 58], .field .fidoCharset true),
    ([67, 72, 65, 82, 83, 69, 84, 58], .field .fidoCharset true),
    -- "TZUTC:", "TZUTCINFO:", "COLS:"
    ([84, 90, 85, 84, 67, 58], .zone), ([84, 90, 85, 84, 67, 73, 78, 70, 79, 58], .zone),
    ([67, 79, 76, 83, 58], .cols)]

/-- The first of the kludge lines whose name stands at `p`. -/
def findKludge (p : List UInt8) : List (Str × Kludge) → Option (Option (Str × Kludge))
  | [] => some none
  | k :: ks => do if ← strncmp p k.1 then pure (some k) else findKludge p ks

/-! ## The loop -/

/-- `MAX_TAILLEN` -/
def maxTaillen : ℕ := 1024

structure State where
  l : ℕ
  cr : Bool
  done : Bool
  esc : Bool
  col : UInt32
  body : List UInt8
  tail : List UInt8
  hfields : List (HfieldType × List UInt8)
  origaddr : FidoAddr
  destaddr : FidoAddr
  zone : Int16

/-- A byte behind those of an array with room for `size` of them. -/
def store (array : List UInt8) (size : ℕ) (c : UInt8) : Option (List UInt8) :=
  if array.length < size then some (array ++ [c]) else none

section Text

variable (fbuf : Str)

/-- The text with its terminator, from `l` on. -/
def pointer (l : ℕ) : List UInt8 := (fbuf ++ [0]).drop l

/-- `while(l<length && ...) l++` -/
def skip (pred : UInt8 → Bool) (l : ℕ) : ℕ := l + ((fbuf.drop l).takeWhile pred).length

/-- What is skipped in front of a value and cut off behind it. -/
def isGarbage (c : UInt8) : Bool := c ≤ 32

def isCr (c : UInt8) : Bool := c = 13

/-- `while(m && ...) m--` -/
def trimBack : ℕ → Option ℕ
  | 0 => some 0
  | m + 1 => do if isGarbage (← (fbuf ++ [0])[m]?) then trimBack m else pure (m + 1)

/-- `smb_hfield` for what stands from `l` to `m`, with a length of 16 bits. -/
def hfield (l m : ℕ) : Option (List UInt8) :=
  let length := (m - l) % 65536
  if l + length ≤ fbuf.length + 1 then some ((pointer fbuf l).take length) else none

/-- The end of the value that starts at `l`. -/
def valueEnd (trim : Bool) (l : ℕ) : Option ℕ :=
  let m := skip fbuf (fun c ↦ !isCr c) l
  if trim then trimBack fbuf m else some m

/-- The value that starts at `l` becomes a header field. -/
def addField (s : State) (type : HfieldType) (trim : Bool) (l : ℕ) : Option State := do
  let m ← valueEnd fbuf trim l
  if l < m then pure { s with hfields := s.hfields ++ [(type, ← hfield fbuf l m)] } else pure s

/-- The value behind a name of the length `n`. -/
def skipName (l n : ℕ) : ℕ := skip fbuf isGarbage (l + 1 + n)

/-- A kludge line up to the skip to its end. -/
def kludgeLine (s : State) : Option State := do
  let p := pointer fbuf (s.l + 1)
  match ← findKludge p kludges with
  | none =>
      -- unknown: the value starts with the name
      let l := skip fbuf isGarbage s.l
      addField fbuf { s with l } .fidoCtrl true l
  | some (_, .topt) =>
      pure { s with destaddr := { s.destaddr with point := UInt16.ofInt (← atoi (p.drop 5)) } }
  | some (_, .fmpt) =>
      pure { s with origaddr := { s.origaddr with point := UInt16.ofInt (← atoi (p.drop 5)) } }
  | some (_, .intl) =>
      let dest ← atofaddr (p.drop 5)
      let l := skip fbuf (fun c ↦ c ≠ 32) (s.l + 6)
      let orig ← atofaddr (pointer fbuf (l + 1))
      pure { s with
        l
        destaddr := { dest with point := s.destaddr.point }
        origaddr := { orig with point := s.origaddr.point } }
  | some (name, .field type trim) =>
      let l := skipName fbuf s.l name.length
      addField fbuf { s with l } type trim l
  | some (name, .zone) =>
      let l := skipName fbuf s.l name.length
      pure { s with l, zone := ← fmsgzone (pointer fbuf l) }
  | some (name, .cols) =>
      let l := skipName fbuf s.l name.length
      let columns := UInt8.ofInt (← atoi (pointer fbuf l))
      if columns > 0 then pure { s with l, hfields := s.hfields ++ [(.smbColumns, [columns])] }
      else pure { s with l }

/-- To the end of the line, and over it. -/
def nextLine (s : State) : State := { s with l := skip fbuf (fun c ↦ !isCr c) s.l + 1 }

/-- A byte of the body or of the tail. -/
def put (s : State) (c : UInt8) : Option State :=
  if s.done then
    if s.tail.length < maxTaillen then do
      pure { s with tail := ← store s.tail (maxTaillen + 1) c }
    else some s
  else do pure { s with body := ← store s.body ((fbuf.length + 1) * 2) c }

/-- `while(*p && *p!='\r') p++` -/
def findLineEnd : List UInt8 → Option ℕ
  | [] => none
  | c :: p => if c = 0 ∨ c = 13 then some 0 else (findLineEnd p).map (· + 1)

/-- `while(p && *p!='(') p--`, where the pointer is never `NULL`. -/
def rewind : ℕ → Option ℕ
  | 0 => do if (← (fbuf ++ [0])[0]?) = 40 then pure 0 else none
  | p + 1 => do if (← (fbuf ++ [0])[p + 1]?) = 40 then pure (p + 1) else rewind p

/-- `" * Origin: "` -/
def originName : Str := [32, 42, 32, 79, 114, 105, 103, 105, 110, 58, 32]

def isOriginLine (s : State) : Option Bool :=
  if s.col = 1 then strncmp (pointer fbuf s.l) originName else some false

/-- The address in parentheses at the end of the origin line. -/
def originLine (l : ℕ) : Option FidoAddr := do
  let n ← findLineEnd (pointer fbuf (l + 11))
  let p ← rewind fbuf (l + 11 + n)
  atofaddr (pointer fbuf (p + 1))

/-- A line break, where a word goes beyond the end of the line. -/
def wordWrap (s : State) (ch : UInt8) : Option State :=
  if ch = 32 ∧ s.col > 40 ∧ ¬s.esc then
    let m := skip fbuf (fun c ↦ !isGarbage c) (s.l + 1)
    if m < fbuf.length ∧ m - s.l > (80 - s.col).toNat then do
      let body ← store s.body ((fbuf.length + 1) * 2) 13
      pure { s with body := ← store body ((fbuf.length + 1) * 2) 10, col := 0 }
    else some s
  else some s

/-- A character that is copied. -/
def textChar (s : State) (ch : UInt8) : Option State := do
  let s ← put fbuf s ch
  if ch = 13 then put fbuf { s with cr := true, col := 0 } 10
  else
    let s := { s with cr := false, col := s.col + 1 }
    if ← isOriginLine fbuf s then pure { s with origaddr := ← originLine fbuf s.l, done := true }
    else if s.done then pure s
    else wordWrap fbuf { s with esc := s.esc || ch = 27 } ch

/-- `"SEEN-BY:"` -/
def seenByName : Str := [83, 69, 69, 78, 45, 66, 89, 58]

/-- `"--- "` or `"---\r"` at the start of a line -/
def isTearLine (s : State) : Option Bool :=
  if s.cr then do
    if ← strncmp (pointer fbuf s.l) [45, 45, 45, 32] then pure true
    else strncmp (pointer fbuf s.l) [45, 45, 45, 13]
  else some false

def isSeenBy (s : State) : Option Bool :=
  if s.done ∧ s.cr then strncmp (pointer fbuf s.l) seenByName else some false

/-- A character that is no kludge line. -/
def textStep (s : State) (ch : UInt8) : Option State :=
  if ch = 10 then some { s with l := s.l + 1 }
  else do
    let tear ← isTearLine fbuf s
    let s := { s with done := s.done || tear }
    if ← isSeenBy fbuf s then
      let l := skip fbuf isGarbage (s.l + 8)
      pure (nextLine fbuf (← addField fbuf { s with l } .fidoSeenby true l))
    else (textChar fbuf s ch).map fun s ↦ { s with l := s.l + 1 }

/-- `"AREA:"` -/
def areaName : Str := [65, 82, 69, 65, 58]

/-- The `AREA:` line at the start of the text, which is kept for an unknown echo. -/
def isAreaLine (s : State) : Option Bool :=
  if s.l = 0 then strncmp (pointer fbuf s.l) areaName else some false

/-- The name of the area becomes a header field. -/
def areaLine (s : State) : Option State :=
  addField fbuf s .fidoArea true (skip fbuf isGarbage (s.l + 5))

/-- A turn of the loop for a kludge line or a character. -/
def lineStep (s : State) : Option State := do
  let ch ← fbuf[s.l]?
  if ch = 1 ∧ s.cr then (kludgeLine fbuf s).map (nextLine fbuf)
  else textStep fbuf s (if ch = 1 then 64 else ch)

/-- One turn of the loop, which keeps the `AREA:` line in the body when `keep` says so. -/
def step (keep : Bool) (s : State) : Option State := do
  if ← isAreaLine fbuf s then
    let s ← areaLine fbuf s
    if keep then lineStep fbuf s
    else pure (nextLine fbuf { s with l := skip fbuf isGarbage (s.l + 5) })
  else lineStep fbuf s

/-- The message before its text is looked at. -/
def start (origaddr destaddr : FidoAddr) (zone : Int16) : State where
  l := 0
  cr := true
  done := false
  esc := false
  col := 0
  body := []
  tail := []
  hfields := []
  origaddr
  destaddr
  zone

/-- `l<length` is what the loop goes on for. -/
def isEnd (s : State) : Bool := fbuf.length ≤ s.l

/-- The strings that are stored: the body without its last line end, the tail without what is
not printable at its end, both with their terminators. -/
def terminate (s : State) : Option State := do
  let body := if [13, 10] <:+ s.body then s.body.take (s.body.length - 2) else s.body
  let body ← store body ((fbuf.length + 1) * 2) 0
  let tail ← store (s.tail.rdropWhile isGarbage) (maxTaillen + 1) 0
  pure { s with body, tail }

/-- The conversion of `fmsgtosmsg`. -/
def convert (keep : Bool) (s : State) : Option State :=
  (CheckedLoop.run (isEnd fbuf) (step fbuf keep) (fbuf.length + 1) s).bind (terminate fbuf)

end Text

/-! ## Addresses of stored messages -/

/-- What `getzpt` sets of the header of a stored message. -/
structure Zpt where
  i : ℕ
  cr : Bool
  orig : FidoAddr
  dest : FidoAddr
  intlFound : Bool

section Getzpt

variable (buf : List UInt8) (len : ℕ)

/-- `while(buf[i] && buf[i]!=' ') i++` -/
def findBlank : List UInt8 → Option ℕ
  | [] => none
  | c :: p => if c = 0 ∨ c = 32 then some 0 else (findBlank p).map (· + 1)

/-- A kludge line of `getzpt` up to the skip to its end. -/
def zptKludge (s : Zpt) : Option Zpt := do
  let p := buf.drop (s.i + 1)
  if ← strncmp p [84, 79, 80, 84, 32] then
    pure { s with dest := { s.dest with point := UInt16.ofInt (← atoi (p.drop 5)) } }
  else if ← strncmp p [70, 77, 80, 84, 32] then
    pure { s with orig := { s.orig with point := UInt16.ofInt (← atoi (p.drop 5)) } }
  else if ← strncmp p [73, 78, 84, 76, 32] then
    let dest ← atofaddr (p.drop 5)
    let i := s.i + 6 + (← findBlank (p.drop 5))
    let orig ← atofaddr (buf.drop (i + 1))
    pure { s with
      i
      dest := { dest with point := s.dest.point }
      orig := { orig with point := s.orig.point }
      intlFound := true }
  else pure s

/-- To the end of the line within the `len` bytes that were read. -/
def zptSkip (i : ℕ) : ℕ := i + (((buf.take len).drop i).takeWhile fun c ↦ !isCr c).length

/-- One turn of the loop of `getzpt`. -/
def zptStep (s : Zpt) : Option Zpt := do
  let c ← buf[s.i]?
  if c = 10 then pure { s with i := s.i + 1 }
  else if (s.i = 0 ∨ s.cr) ∧ c = 1 then do
    let s ← zptKludge buf s
    pure { s with i := zptSkip buf len s.i + 1, cr := true }
  else pure { s with i := s.i + 1, cr := c = 13 }

/-- `getzpt` for what it has read: `len` bytes at the start of its buffer. -/
def getzpt (orig dest : FidoAddr) : Option Zpt :=
  CheckedLoop.run (fun s ↦ decide (len ≤ s.i)) (zptStep buf len) (len + 1) ⟨0, false, orig, dest, false⟩

end Getzpt

end Synchronet.Sbbs3.Echo.Fmsg
