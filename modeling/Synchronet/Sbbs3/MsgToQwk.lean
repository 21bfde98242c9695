import Synchronet.Lib.Stream
import Synchronet.Sbbs3.MsgDate
import Synchronet.Sbbs3.QwkText
import Synchronet.Sbbs3.SbbsEcho

/-!
# What msgtoqwk writes (msgtoqwk.cpp)

`msgtoqwk` with the stream of the packet and the number of bytes that it counts beside each of
its writes.  What it writes to a second stream for HEADERS.DAT is left out.
-/

namespace Synchronet.Sbbs3.MsgToQwk

open Xpdev (Str safecopy strchr)
open Smblib (cstr)
open Echo (FidoAddr faddrtoa)
open Qwk (qwkNewline qwkBlockLen validCtrlACode ctrlAToAsciiChar)

/-! ## What is exported -/

def qwkHfieldLen : ℕ := 25

def maxMsgnum : UInt32 := 0x7fffff

/-- `net_t` -/
inductive Net
  | none
  | fido (addr : FidoAddr)
  | internet (addr : Str)
  | qwk (addr : Str)
  | other (addr : Str)

inductive HField
  | sender (name : Str)
  | forwarded (time : UInt32)
  | other

/-- `smbmsg_t`.  The text is none where `smb_getmsgtxt` fails. -/
structure Msg where
  fromName : Str
  toName : Str
  subj : Str
  fromNet : Net
  toNet : Net
  forwarded : Bool
  anonymous : Bool
  priv : Bool
  read : Bool
  number : UInt32
  threadBack : UInt32
  time : UInt32
  zone : UInt16
  replyId : Option Str
  replyto : Option Str
  hfields : List HField
  text : Option Str

/-- The bits of `mode`. -/
structure Mode where
  expand : Bool
  leave : Bool
  tagline : Bool
  toQnet : Bool
  rep : Bool
  via : Bool
  tz : Bool
  msgid : Bool
  replyto : Bool

structure Sub where
  ascii : Bool
  noTag : Bool
  tagline : Str

/-- The user, the strings of the configuration, and what other functions make of their arguments.
`remsg` is the message-ID of a message that is replied to, or `smb.last_error`. -/
structure Env where
  anonymousText : Str
  sysop : Bool
  qwkExt : Bool
  restQ : Bool
  getMsgid : Msg → Str
  remsg : UInt32 → Except Str Str
  timestr : UInt32 → Str
  localtime : UInt32 → Option Tm

/-! ## The packet -/

/-- The stream, and `size`. -/
structure Export where
  qwkFp : Stream UInt8
  size : ℕ

def Export.fputc (s : Export) (c : UInt8) : Export := { s with qwkFp := s.qwkFp.write 0 [c] }

def Export.grow (s : Export) (n : ℕ) : Export := { s with size := s.size + n }

/-- `size+=fprintf(qwk_fp,…)` -/
def Export.print (s : Export) (text : Str) : Export where
  qwkFp := s.qwkFp.write 0 text
  size := s.size + text.length

/-! ## The lines at the top -/

/-- A line with `QWK_NEWLINE` behind it. -/
def line (text : Str) : Str := text ++ [qwkNewline]

/-- The name of the sender with his address in mail. -/
def senderName (mode : Mode) (sub : Option Sub) (msg : Msg) : Str :=
  if sub.isNone ∧ ¬mode.toQnet then
    match msg.fromNet with
    | .none => safecopy 512 msg.fromName
    | .fido addr => msg.fromName.take 128 ++ 64 :: (faddrtoa addr).take 128
    | .internet addr => addr.take 128
    | .qwk addr | .other addr =>
        if 64 ∈ addr then addr.take 128 else msg.fromName.take 128 ++ 64 :: addr.take 128
  else safecopy 512 msg.fromName

/-- `From: ` where the name is too long for the header, and the name in the header. -/
def senderLines (env : Env) (mode : Mode) (sub : Option Sub) (msg : Msg) : List Str × Str :=
  if msg.anonymous ∧ ¬env.sysop then ([], safecopy 512 env.anonymousText)
  else if (sub.isNone ∨ env.qwkExt) ∧ qwkHfieldLen < (senderName mode sub msg).length then
    ([line ([70, 114, 111, 109, 58, 32] ++ (senderName mode sub msg).take 128)],
      safecopy 512 msg.fromName)
  else ([], senderName mode sub msg)

/-- `NETMAIL` -/
def netmail : Str := [78, 69, 84, 77, 65, 73, 76]

/-- The line for another hop, and the name of the addressee with his address in mail. -/
def hopLines (mode : Mode) (sub : Option Sub) (msg : Msg) : List Str × Str :=
  if sub.isNone then
    match msg.toNet with
    | .none => ([], safecopy 512 msg.toName)
    | .fido addr => ([], msg.toName.take 128 ++ 64 :: faddrtoa addr)
    | .internet addr => ([], addr.take 128)
    | .qwk addr =>
        if mode.toQnet then
          match strchr addr 47 with
          | some p => ([line (msg.toName.take 128 ++ 64 :: (addr.drop (p + 1)).take 128)], netmail)
          | none => ([], msg.toName.take 128)
        else ([], msg.toName.take 128 ++ 64 :: addr.take 128)
    | .other addr => ([], msg.toName.take 128 ++ 64 :: addr.take 128)
  else ([], safecopy 512 msg.toName)

/-- `To: ` where the name is too long for the header, and the name in the header. -/
def addresseeLines (env : Env) (mode : Mode) (sub : Option Sub) (msg : Msg) : List Str × Str :=
  let hop := hopLines mode sub msg
  if (sub.isNone ∨ env.qwkExt) ∧ qwkHfieldLen < hop.2.length then
    (hop.1 ++ [line ([84, 111, 58, 32] ++ hop.2.take 128)],
      match msg.toNet with
      | .qwk _ => netmail
      | _ => safecopy 512 msg.toName)
  else hop

/-- `Subject: ` -/
def subjectLines (env : Env) (msg : Msg) : List Str :=
  if env.qwkExt ∧ qwkHfieldLen < msg.subj.length then
    [line ([83, 117, 98, 106, 101, 99, 116, 58, 32] ++ msg.subj.take 128)]
  else []

/-- `@VIA: ` -/
def viaLines (mode : Mode) (msg : Msg) : List Str :=
  match msg.fromNet with
  | .qwk addr =>
      if mode.via ∧ ¬msg.forwarded then [line ([64, 86, 73, 65, 58, 32] ++ addr)] else []
  | _ => []

/-- `@REPLY: ` -/
def replyLine (id : Str) : Str := line ([64, 82, 69, 80, 76, 89, 58, 32] ++ id)

def replyLines (env : Env) (msg : Msg) : List Str :=
  match msg.replyId with
  | some id => [replyLine ((safecopy 512 id).takeWhile (· ≠ 32))]
  | none =>
      if msg.threadBack ≠ 0 then
        match env.remsg msg.threadBack with
        | .error lastError => [replyLine (60 :: lastError ++ [62])]
        | .ok id => [replyLine id]
      else []

/-- `@MSGID: ` -/
def msgidLines (env : Env) (mode : Mode) (sub : Option Sub) (msg : Msg) : List Str :=
  if mode.msgid ∧ sub.isSome then
    line ([64, 77, 83, 71, 73, 68, 58, 32] ++ env.getMsgid msg) :: replyLines env msg
  else []

/-- `%04hx` -/
def hex4 (n : UInt16) : Str :=
  let digits := ultoa n.toNat 16
  List.replicate (4 - digits.length) 48 ++ digits

/-- `@TZ: ` -/
def tzLines (mode : Mode) (msg : Msg) : List Str :=
  if msg.zone ≠ 0 ∧ mode.tz then [line ([64, 84, 90, 58, 32] ++ hex4 msg.zone)] else []

/-- `@REPLYTO: ` -/
def replytoLines (mode : Mode) (msg : Msg) : List Str :=
  match msg.replyto with
  | some replyto =>
      if mode.replyto then [line ([64, 82, 69, 80, 76, 89, 84, 79, 58, 32] ++ replyto)] else []
  | none => []

/-- `Forwarded from %s on %s` -/
def forwardedLines (env : Env) (p : Option Str) : List HField → List Str
  | [] => []
  | .sender name :: hfields => forwardedLines env (some name) hfields
  | .forwarded time :: hfields =>
      match p with
      | some name =>
          line ([70, 111, 114, 119, 97, 114, 100, 101, 100, 32, 102, 114, 111, 109, 32] ++ name ++
            [32, 111, 110, 32] ++ env.timestr time) :: forwardedLines env p hfields
      | none => forwardedLines env p hfields
  | .other :: hfields => forwardedLines env p hfields

/-- The lines that `msgtoqwk` prints before the text. -/
def kludges (env : Env) (mode : Mode) (sub : Option Sub) (msg : Msg) : List Str :=
  (senderLines env mode sub msg).1 ++ (addresseeLines env mode sub msg).1 ++
    subjectLines env msg ++ viaLines mode msg ++ msgidLines env mode sub msg ++
    tzLines mode msg ++ replytoLines mode msg ++ forwardedLines env none msg.hfields

/-! ## The text -/

/-- `ansi`, for the digits of an attribute. -/
def ansi (digits : Str) : Str := [27, 91] ++ digits ++ [109]

/-- What a Ctrl-A code is expanded to. -/
def ctrlAExpand (a : UInt8) : Str :=
  match toupper a with
  | 87 => ansi [51, 55]
  | 75 => ansi [51, 48]
  | 72 => ansi [49]
  | 73 => ansi [53]
  | 45 | 95 | 78 => ansi [48]
  | 82 => ansi [51, 49]
  | 71 => ansi [51, 50]
  | 66 => ansi [51, 52]
  | 67 => ansi [51, 54]
  | 77 => ansi [51, 53]
  | 89 => ansi [51, 51]
  | 48 => ansi [52, 48]
  | 49 => ansi [52, 49]
  | 50 => ansi [52, 50]
  | 51 => ansi [52, 51]
  | 52 => ansi [52, 52]
  | 53 => ansi [52, 53]
  | 54 => ansi [52, 54]
  | 55 => ansi [52, 55]
  | _ => []

structure TextState where
  out : Export
  ch : UInt8
  tear : ℕ
  tearwatch : ℕ

/-- A line feed; the last one of a CRLF is a `QWK_NEWLINE`. -/
def lineFeed (prev : UInt8) (s : TextState) : TextState :=
  let tear := if s.tear ≠ 0 then s.tear + 1 else 0
  let tear := if 3 < tear then 0 else tear
  let ch := if prev = 13 then qwkNewline else 10
  { out := (s.out.fputc ch).grow 1
    ch
    tear := if s.tearwatch = 4 then 1 else tear
    tearwatch := if s.tearwatch = 0 then 1 else 0 }

def carriageReturn (s : TextState) : TextState :=
  { s with
    ch := 13
    tearwatch := if s.tearwatch < 4 then 0 else s.tearwatch }

/-- The code behind a Ctrl-A. -/
def ctrlA (mode : Mode) (a : UInt8) (s : TextState) : TextState :=
  let s := { s with ch := a, tearwatch := 0 }
  if ctrlAToAsciiChar a ≠ 0 then { s with out := (s.out.fputc (ctrlAToAsciiChar a)).grow 1 }
  else if mode.expand then
    if ctrlAExpand a ≠ [] then { s with out := s.out.print (ctrlAExpand a) } else s
  else if mode.leave ∧ validCtrlACode a then
    { s with out := ((s.out.fputc 1).fputc a).grow 2 }
  else s

/-- A character in a sub-board for ASCII only.  A `char` is signed, so that those from 128 on
are below a blank and do not come to the table for them. -/
def asciiOnly (c : UInt8) : UInt8 := if (c < 32 ∨ 128 ≤ c) ∧ c ≠ 1 then 46 else c

/-- Any other character. -/
def plainChar (ascii first : Bool) (c : UInt8) (s : TextState) : TextState :=
  let tear := if c = 32 ∧ s.tearwatch = 4 then 1 else s.tear
  let tearwatch := if c = 32 ∧ s.tearwatch = 4 then 0 else s.tearwatch
  let tearwatch :=
    if c = 45 then if first ∨ tearwatch ≠ 0 ∧ tearwatch < 4 then tearwatch + 1 else 0 else 0
  let ch := if ascii then asciiOnly c else c
  let ch := if ch = qwkNewline then 42 else ch
  { out := (s.out.fputc ch).grow 1
    ch
    tear
    tearwatch }

/-- The loop over the text, with the byte before. -/
def textLoop (mode : Mode) (ascii : Bool) (first : Bool) (prev : UInt8) (s : TextState) :
    Str → TextState
  | [] => s
  | 10 :: rest => textLoop mode ascii false 10 (lineFeed prev s) rest
  | 13 :: rest => textLoop mode ascii false 13 (carriageReturn s) rest
  | 1 :: [] => { s with ch := 0 }
  | 1 :: a :: rest =>
      if toupper a = 90 then { s with ch := a }
      else textLoop mode ascii false a (ctrlA mode a s) rest
  | c :: rest => textLoop mode ascii false c (plainChar ascii first c s) rest

/-- It ends with a `QWK_NEWLINE`. -/
def endText (s : TextState) : Export :=
  if s.ch ≠ qwkNewline then (s.out.fputc qwkNewline).grow 1 else s.out

/-! ## The tag line and the header -/

/-- `remove_ctrl_a`, which takes a character back at a backspace. -/
def removeCtrlA (dest : Str) : Str → Str
  | [] => dest
  | 1 :: [] => dest
  | 1 :: a :: rest =>
      if toupper a = 90 then dest
      else removeCtrlA (if a = 60 then dest.dropLast else dest) rest
  | c :: rest => removeCtrlA (dest ++ [c]) rest

/-- `Synchronet`, the first ten characters of `VERSION_NOTICE` -/
def versionNotice : Str := [83, 121, 110, 99, 104, 114, 111, 110, 101, 116]

def tagLine (mode : Mode) (sub : Sub) (tear : ℕ) : Str :=
  let tearline : Str := if tear = 0 then [1, 110, 45, 45, 45, qwkNewline] else [1, 110]
  let ch := if sub.ascii then 42 else 254
  let str := tearline ++ ([32, ch, 32, 1, 103] ++ versionNotice ++ [1, 110, 32, ch, 32] ++
    sub.tagline.take 127 ++ [qwkNewline])
  if mode.leave then str else removeCtrlA [] str

/-- The tag line of the sub-board; there is none of mail. -/
def addTagLine (mode : Mode) (sub : Option Sub) (tear : ℕ) (s : Export) : Option Export :=
  if mode.tagline then
    sub.map fun sub ↦ if sub.noTag then s else s.print (tagLine mode sub tear)
  else some s

def pad (s : Export) : Export :=
  if s.size % qwkBlockLen ≠ 0 then pad ((s.grow 1).fputc 32) else s
  termination_by (qwkBlockLen - s.size % qwkBlockLen) % qwkBlockLen
  decreasing_by
    simp only [Export.grow, Export.fputc, qwkBlockLen]
    simp only [qwkBlockLen] at *
    omega

/-- `%02u` -/
def unsigned2 (n : ℤ) : Str :=
  let digits := ultoa (n % 2 ^ 32).toNat 10
  if digits.length < 2 then 48 :: digits else digits

def dateTime (env : Env) (time : UInt32) : Str :=
  let tm := (env.localtime time).getD {}
  unsigned2 (tm.mon + 1) ++ 45 :: unsigned2 tm.mday ++ 45 :: unsigned2 (tm.year.tmod 100) ++
    unsigned2 tm.hour ++ 58 :: unsigned2 tm.min

/-- `%-*.*s` -/
def textField (width : ℕ) (text : Str) : Str :=
  text.take width ++ List.replicate (width - text.length) 32

/-- `%-*lu` -/
def numberField (width n : ℕ) : Str :=
  ultoa n 10 ++ List.replicate (width - (ultoa n 10).length) 32

def statusFlag (msg : Msg) : UInt8 :=
  if msg.priv then if msg.read then 42 else 43 else if msg.read then 45 else 32

/-- An `int` as an `unsigned long`. -/
def unsignedLong (n : Int32) : ℕ := (n.toInt % 2 ^ 64).toNat

/-- What is printed to `str` for the header. -/
def headerText (env : Env) (mode : Mode) (sub : Option Sub) (conf : Int32) (msg : Msg)
    (size : ℕ) : Str :=
  [statusFlag msg] ++
    numberField 7 (if mode.rep then unsignedLong conf else (msg.number &&& maxMsgnum).toNat) ++
    textField 13 (dateTime env msg.time) ++
    textField 25 (addresseeLines env mode sub msg).2 ++
    textField 25 (senderLines env mode sub msg).2 ++
    textField 25 msg.subj ++
    List.replicate 12 32 ++
    numberField 8 (msg.threadBack &&& maxMsgnum).toNat ++
    numberField 6 (size / qwkBlockLen + 1) ++
    [0xe1, UInt8.ofNat (unsignedLong conf), UInt8.ofNat (unsignedLong conf / 256), 32, 32,
      if env.restQ then 42 else 32]

/-- The header is written over the blanks at the offset of the message. -/
def patchHeader (offset : ℕ) (header : Str) (s : Export) : Export :=
  let qwkFp := (s.qwkFp.seek offset).write 0 (header.take qwkBlockLen)
  { s with qwkFp := qwkFp.seek (qwkFp.pos + s.size) }

/-- The stream and the size that is returned; none where mail is given the tag line of a
sub-board. -/
def msgtoqwk (env : Env) (mode : Mode) (sub : Option Sub) (conf : Int32) (msg : Msg)
    (qwkFp : Stream UInt8) : Option (Stream UInt8 × ℕ) :=
  let blank : Export := ⟨qwkFp.write 0 (List.replicate qwkBlockLen 32), 0⟩
  let s := (kludges env mode sub msg).foldl Export.print blank
  match msg.text with
  | none => some (s.qwkFp, 0)
  | some buf => do
      let t := textLoop mode (sub.any Sub.ascii) true 0 ⟨s, 0, 0, 0⟩ (cstr buf)
      let s ← addTagLine mode sub t.tear (endText t)
      let s := pad s
      let s := patchHeader qwkFp.pos (headerText env mode sub conf msg s.size) s
      return (s.qwkFp, s.size)

/-! ## Counting what is written -/

namespace Export

variable {s : Export} {c : UInt8} {text text' : Str}

@[simp] theorem print_nil : s.print [] = s := by simp [print]

theorem print_append : s.print (text ++ text') = (s.print text).print text' := by
  simp only [print, Stream.write_append, List.length_append, Nat.add_assoc]

theorem grow_fputc : (s.fputc c).grow 1 = s.print [c] := rfl

theorem grow_fputc_fputc (a : UInt8) : ((s.fputc c).fputc a).grow 2 = s.print [c, a] := by
  rw [print, ← List.singleton_append, Stream.write_append]
  rfl

theorem foldl_print (lines : List Str) : lines.foldl print s = s.print lines.flatten := by
  induction lines generalizing s with
  | nil => rw [List.foldl_nil, List.flatten_nil, print_nil]
  | cons text lines ih => rw [List.foldl_cons, ih, List.flatten_cons, print_append]

end Export

/-- Blanks are written up to the end of a block, and none where nothing has been written. -/
theorem pad_eq (s : Export) : ∃ n, pad s = s.print (List.replicate n 32) ∧
    qwkBlockLen ∣ s.size + n ∧ (s.size = 0 → n = 0) := by
  fun_induction pad s with
  | case1 s h ih =>
      obtain ⟨n, hpad, hdvd, -⟩ := ih
      have hsplit : List.replicate (n + 1) (32 : UInt8) = [32] ++ List.replicate n 32 :=
        List.replicate_succ
      have hsize : ((s.grow 1).fputc 32).size + n = s.size + (n + 1) := by
        change s.size + 1 + n = _
        omega
      refine ⟨n + 1, ?_, hsize ▸ hdvd, ?_⟩
      · rw [hpad, hsplit, Export.print_append]
        rfl
      · intro hzero
        exact absurd (by rw [hzero, Nat.zero_mod]) h
  | case2 s h =>
      refine ⟨0, by simp, ?_, fun _ ↦ rfl⟩
      exact Nat.dvd_of_mod_eq_zero (not_ne_iff.mp h)

/-! ## A text that writes nothing -/

/-- A Ctrl-A code that is dropped. -/
def silentCode (mode : Mode) (a : UInt8) : Prop :=
  toupper a ≠ 90 ∧ ctrlAToAsciiChar a = 0 ∧
    if mode.expand then ctrlAExpand a = [] else ¬(mode.leave ∧ validCtrlACode a)

/-- Carriage returns and codes that are dropped, and at the end a code that looks like a
`QWK_NEWLINE`. -/
inductive SilentlyEnds (mode : Mode) : Str → Prop
  | last : SilentlyEnds mode [1, qwkNewline]
  | cr {rest : Str} (h : SilentlyEnds mode rest) : SilentlyEnds mode (13 :: rest)
  | code {a : UInt8} {rest : Str} (ha : silentCode mode a) (h : SilentlyEnds mode rest) :
      SilentlyEnds mode (1 :: a :: rest)

variable {mode : Mode} {ascii first : Bool} {prev a c : UInt8} {s : TextState} {rest : Str}

theorem SilentlyEnds.cr_iff : SilentlyEnds mode (13 :: rest) ↔ SilentlyEnds mode rest := by
  refine ⟨fun h ↦ ?_, .cr⟩
  cases h with
  | cr h => exact h

theorem SilentlyEnds.code_iff : SilentlyEnds mode (1 :: a :: rest) ↔
    silentCode mode a ∧ (rest = [] ∧ a = qwkNewline ∨ SilentlyEnds mode rest) := by
  constructor
  · intro h
    cases h with
    | last =>
        refine ⟨⟨by decide, by decide, ?_⟩, .inl ⟨rfl, rfl⟩⟩
        have hvalid : validCtrlACode qwkNewline = false := by decide
        have hexpand : ctrlAExpand qwkNewline = [] := by decide
        simp [hvalid, hexpand]
    | code ha h => exact ⟨ha, .inr h⟩
  · rintro ⟨ha, ⟨rfl, rfl⟩ | h⟩
    · exact .last
    · exact .code ha h

theorem ctrlA_writes (mode : Mode) (a : UInt8) (s : TextState) : ∃ text,
    ctrlA mode a s = { s with out := s.out.print text, ch := a, tearwatch := 0 } ∧
      (text = [] ↔ ctrlAToAsciiChar a = 0 ∧
        if mode.expand then ctrlAExpand a = [] else ¬(mode.leave ∧ validCtrlACode a)) := by
  rw [ctrlA]
  by_cases hascii : ctrlAToAsciiChar a = 0
  · by_cases hexpand : mode.expand
    · by_cases hnone : ctrlAExpand a = []
      · exact ⟨[], by simp [hascii, hexpand, hnone], by simp [hascii, hexpand, hnone]⟩
      · exact ⟨ctrlAExpand a, by simp [hascii, hexpand, hnone], by simp [hascii, hexpand]⟩
    · by_cases hleave : mode.leave ∧ validCtrlACode a
      · refine ⟨[1, a], ?_, by simp [hexpand, hleave]⟩
        simp [hascii, hexpand, hleave, Export.grow_fputc_fputc]
      · exact ⟨[], by simp [hascii, hexpand, hleave], by simp [hascii, hexpand, hleave]⟩
  · refine ⟨[ctrlAToAsciiChar a], ?_, by simp [hascii]⟩
    simp [hascii, Export.grow_fputc]

/-- What the loop writes is counted, and it is nothing with the last character a `QWK_NEWLINE`
only for such a text. -/
theorem textLoop_writes (mode : Mode) (ascii first : Bool) (prev : UInt8) (s : TextState)
    (rest : Str) : ∃ text,
      (textLoop mode ascii first prev s rest).out = s.out.print text ∧
      (text = [] → (textLoop mode ascii first prev s rest).tear = s.tear) ∧
      (text = [] ∧ (textLoop mode ascii first prev s rest).ch = qwkNewline ↔
        rest = [] ∧ s.ch = qwkNewline ∨ SilentlyEnds mode rest) := by
  fun_induction textLoop mode ascii first prev s rest with
  | case1 first prev s =>
      refine ⟨[], by simp, fun _ ↦ rfl, ?_⟩
      have hnot : ¬SilentlyEnds mode [] := by
        rintro ⟨⟩
      simp [hnot]
  | case2 first prev s rest ih =>
      obtain ⟨text, hout, -⟩ := ih
      refine ⟨(if prev = 13 then qwkNewline else 10) :: text, ?_, by simp, ?_⟩
      · rw [hout, ← List.singleton_append, Export.print_append]
        rfl
      · have hnot : ¬SilentlyEnds mode (10 :: rest) := by
          rintro ⟨⟩
        simp [hnot]
  | case3 first prev s rest ih =>
      obtain ⟨text, hout, htear, hiff⟩ := ih
      refine ⟨text, hout, htear, ?_⟩
      have hch : (13 : UInt8) ≠ qwkNewline := by decide
      rw [hiff, SilentlyEnds.cr_iff]
      simp [carriageReturn, hch]
  | case4 first prev s =>
      refine ⟨[], by simp, fun _ ↦ rfl, ?_⟩
      have hnot : ¬SilentlyEnds mode [1] := by
        rintro ⟨⟩
      have hch : (0 : UInt8) ≠ qwkNewline := by decide
      simp [hnot, hch]
  | case5 first prev s a rest ha =>
      refine ⟨[], by simp, fun _ ↦ rfl, ?_⟩
      have hch : a ≠ qwkNewline := by
        rintro rfl
        exact absurd ha (by decide)
      simp [SilentlyEnds.code_iff, silentCode, ha, hch]
  | case6 first prev s a rest ha ih =>
      obtain ⟨text, hout, htear, hiff⟩ := ih
      obtain ⟨code, hctrl, hcode⟩ := ctrlA_writes mode a s
      rw [hctrl] at hout htear hiff
      refine ⟨code ++ text, ?_, ?_, ?_⟩
      · rw [hctrl, hout, Export.print_append]
      · intro h
        rw [hctrl]
        exact htear (List.append_eq_nil_iff.mp h).2
      · rw [hctrl, List.append_eq_nil_iff, and_assoc, hiff, hcode, SilentlyEnds.code_iff,
          silentCode]
        simp [ha]
  | case7 first prev s c rest h10 h13 h1 h1' ih =>
      obtain ⟨text, hout, -⟩ := ih
      have hnot : ¬SilentlyEnds mode (c :: rest) := by
        intro h
        cases h with
        | last => exact h1' _ _ rfl rfl
        | cr h => exact h13 rfl
        | code ha h => exact h1' _ _ rfl rfl
      refine ⟨(plainChar ascii first c s).ch :: text, ?_, by simp, by simp [hnot]⟩
      rw [hout, ← List.singleton_append, Export.print_append]
      rfl

/-! ## A message without lines at the top -/

def HField.isSender : HField → Bool
  | .sender _ => true
  | _ => false

def HField.isForwarded : HField → Bool
  | .forwarded _ => true
  | _ => false

/-- None of the lines before the text is called for. -/
structure NoKludges (env : Env) (mode : Mode) (sub : Option Sub) (msg : Msg) : Prop where
  sender : ¬(msg.anonymous ∧ ¬env.sysop) →
    ¬((sub.isNone ∨ env.qwkExt) ∧ qwkHfieldLen < (senderName mode sub msg).length)
  hop : sub.isNone → mode.toQnet → ∀ addr, msg.toNet = .qwk addr → strchr addr 47 = none
  addressee : ¬((sub.isNone ∨ env.qwkExt) ∧ qwkHfieldLen < (hopLines mode sub msg).2.length)
  subject : ¬(env.qwkExt ∧ qwkHfieldLen < msg.subj.length)
  via : mode.via → ¬msg.forwarded → ∀ addr, msg.fromNet ≠ .qwk addr
  msgid : ¬(mode.msgid ∧ sub.isSome)
  tz : ¬(msg.zone ≠ 0 ∧ mode.tz)
  replyto : mode.replyto → msg.replyto = none
  forwarded : msg.hfields.Pairwise fun f g ↦ ¬(f.isSender ∧ g.isForwarded)

variable {env : Env} {sub : Option Sub} {msg : Msg} {text : Str}

@[simp] theorem line_ne_nil : line text ≠ [] := by simp [line]

theorem senderLines_flatten : (senderLines env mode sub msg).1.flatten = [] ↔
    (¬(msg.anonymous ∧ ¬env.sysop) →
      ¬((sub.isNone ∨ env.qwkExt) ∧ qwkHfieldLen < (senderName mode sub msg).length)) := by
  rw [senderLines]
  by_cases hanonymous : msg.anonymous ∧ ¬env.sysop
  · rw [if_pos hanonymous]
    exact iff_of_true rfl fun h ↦ absurd hanonymous h
  · rw [if_neg hanonymous]
    split
    · next hlong =>
      exact iff_of_false (by simp) fun h ↦ h hanonymous hlong
    · next hshort => exact iff_of_true rfl fun _ ↦ hshort

theorem hopLines_flatten : (hopLines mode sub msg).1.flatten = [] ↔
    (sub.isNone → mode.toQnet → ∀ addr, msg.toNet = .qwk addr → strchr addr 47 = none) := by
  rw [hopLines]
  by_cases hsub : sub.isNone
  · rw [if_pos hsub]
    cases hnet : msg.toNet with
    | qwk addr =>
        by_cases hq : mode.toQnet
        · cases hp : strchr addr 47 with
          | none => simp [hq, hp]
          | some p => simp [hq, hp, hsub]
        · simp [hq]
    | none => simp
    | fido addr => simp
    | internet addr => simp
    | other addr => simp
  · rw [if_neg hsub]
    exact iff_of_true rfl fun h ↦ absurd h hsub

theorem addresseeLines_flatten : (addresseeLines env mode sub msg).1.flatten = [] ↔
    (hopLines mode sub msg).1.flatten = [] ∧
      ¬((sub.isNone ∨ env.qwkExt) ∧ qwkHfieldLen < (hopLines mode sub msg).2.length) := by
  rw [addresseeLines]
  split
  · next hlong =>
    have hne : ((hopLines mode sub msg).1 ++
        [line ([84, 111, 58, 32] ++ (hopLines mode sub msg).2.take 128)]).flatten ≠ [] := by
      rw [List.flatten_append, List.flatten_singleton]
      exact List.append_ne_nil_of_right_ne_nil _ line_ne_nil
    exact iff_of_false hne fun h ↦ h.2 hlong
  · next hshort => rw [and_iff_left hshort]

theorem viaLines_flatten : (viaLines mode msg).flatten = [] ↔
    (mode.via → ¬msg.forwarded → ∀ addr, msg.fromNet ≠ .qwk addr) := by
  rw [viaLines]
  cases hnet : msg.fromNet with
  | qwk addr => by_cases hvia : mode.via <;> by_cases hforwarded : msg.forwarded <;> simp [*]
  | none => simp
  | fido addr => simp
  | internet addr => simp
  | other addr => simp

theorem msgidLines_flatten : (msgidLines env mode sub msg).flatten = [] ↔
    ¬(mode.msgid ∧ sub.isSome) := by
  rw [msgidLines]
  split
  · next h => simp [h]
  · next h => exact iff_of_true rfl h

theorem forwardedLines_flatten (env : Env) (p : Option Str) (hfields : List HField) :
    (forwardedLines env p hfields).flatten = [] ↔
      (p.isSome → ∀ f ∈ hfields, ¬f.isForwarded) ∧
        hfields.Pairwise fun f g ↦ ¬(f.isSender ∧ g.isForwarded) := by
  induction hfields generalizing p with
  | nil => simp [forwardedLines]
  | cons hfield hfields ih =>
      rw [List.pairwise_cons]
      cases hfield with
      | sender name =>
          rw [forwardedLines, ih]
          simp only [HField.isSender, HField.isForwarded, Option.isSome_some, List.forall_mem_cons]
          tauto
      | forwarded time =>
          cases p with
          | some name => simp [forwardedLines, HField.isForwarded]
          | none =>
              rw [forwardedLines, ih]
              simp [HField.isSender]
      | other =>
          rw [forwardedLines, ih]
          simp [HField.isSender, HField.isForwarded]

theorem kludges_flatten : (kludges env mode sub msg).flatten = [] ↔
    NoKludges env mode sub msg := by
  have hsubject : (subjectLines env msg).flatten = [] ↔
      ¬(env.qwkExt ∧ qwkHfieldLen < msg.subj.length) := by
    rw [subjectLines]
    split
    · next h => exact iff_of_false (by simp) (not_not_intro h)
    · next h => exact iff_of_true rfl h
  have htz : (tzLines mode msg).flatten = [] ↔ ¬(msg.zone ≠ 0 ∧ mode.tz) := by
    rw [tzLines]
    split
    · next h => exact iff_of_false (by simp) (not_not_intro h)
    · next h => exact iff_of_true rfl h
  have hreplyto : (replytoLines mode msg).flatten = [] ↔ (mode.replyto → msg.replyto = none) := by
    rw [replytoLines]
    cases msg.replyto <;> by_cases h : mode.replyto <;> simp [h]
  simp only [kludges, List.flatten_append, List.append_eq_nil_iff, senderLines_flatten,
    addresseeLines_flatten, hopLines_flatten, hsubject, viaLines_flatten, msgidLines_flatten, htz,
    hreplyto, forwardedLines_flatten]
  constructor
  · rintro ⟨⟨⟨⟨⟨⟨⟨h, h'⟩, h''⟩, h'''⟩, hmsgid⟩, htz⟩, hreplyto⟩, -, hforwarded⟩
    exact ⟨h, h'.1, h'.2, h'', h''', hmsgid, htz, hreplyto, hforwarded⟩
  · intro h
    exact ⟨⟨⟨⟨⟨⟨⟨h.sender, h.hop, h.addressee⟩, h.subject⟩, h.via⟩, h.msgid⟩, h.tz⟩, h.replyto⟩,
      by simp, h.forwarded⟩

/-! ## The header block -/

theorem length_textField (width : ℕ) (text : Str) : (textField width text).length = width := by
  simp only [textField, List.length_append, List.length_take, List.length_replicate]
  omega

theorem le_length_numberField (width n : ℕ) : width ≤ (numberField width n).length := by
  simp only [numberField, List.length_append, List.length_replicate]
  omega

theorem length_numberField {width n : ℕ} (hwidth : 0 < width) (h : n < 10 ^ width) :
    (numberField width n).length = width := by
  have hle := length_ultoa_le (by decide) hwidth h
  simp only [numberField, List.length_append, List.length_replicate]
  omega

theorem le_length_headerText (env : Env) (mode : Mode) (sub : Option Sub) (conf : Int32)
    (msg : Msg) (size : ℕ) :
    qwkBlockLen ≤ (headerText env mode sub conf msg size).length := by
  have hnumber := le_length_numberField 7
    (if mode.rep then unsignedLong conf else (msg.number &&& maxMsgnum).toNat)
  have hback := le_length_numberField 8 (msg.threadBack &&& maxMsgnum).toNat
  have hblocks := le_length_numberField 6 (size / qwkBlockLen + 1)
  simp only [headerText, List.length_append, length_textField, List.length_replicate,
    List.length_cons, List.length_nil] at *
  rw [qwkBlockLen] at *
  omega

theorem toNat_and_maxMsgnum_lt (n : UInt32) : (n &&& maxMsgnum).toNat < 10 ^ 7 := by
  rw [UInt32.toNat_and]
  have hle : n.toNat &&& maxMsgnum.toNat ≤ maxMsgnum.toNat := Nat.and_le_right
  exact hle.trans_lt (by decide)

/-- The six bytes for the number of blocks. -/
theorem blocks_headerText (env : Env) (sub : Option Sub) (msg : Msg) {conf : Int32} {size : ℕ}
    (hconf : mode.rep → 0 ≤ conf.toInt ∧ conf.toInt < 2 ^ 16)
    (hsize : size / qwkBlockLen < 999998) :
    (((headerText env mode sub conf msg size).take qwkBlockLen).drop 116).take 6 =
      numberField 6 (size / qwkBlockLen + 1) := by
  have hlong : (if mode.rep then unsignedLong conf else
      (msg.number &&& maxMsgnum).toNat) < 10 ^ 7 := by
    split
    · next hrep =>
      have hbounds := hconf hrep
      rw [unsignedLong]
      omega
    · exact toNat_and_maxMsgnum_lt msg.number
  have hnumber := length_numberField (by decide) hlong
  have hback : (numberField 8 (msg.threadBack &&& maxMsgnum).toNat).length = 8 :=
    length_numberField (by decide) ((toNat_and_maxMsgnum_lt _).trans (by decide))
  have hblocks : (numberField 6 (size / qwkBlockLen + 1)).length = 6 :=
    length_numberField (by decide) (by omega)
  have htake (text : Str) :
      ((text.take qwkBlockLen).drop 116).take 6 = (text.drop 116).take 6 := by
    rw [List.drop_take, List.take_take]
    rfl
  rw [htake, headerText, List.append_assoc _ (numberField 6 _), List.drop_left' ?_,
    List.take_left' hblocks]
  simp only [List.length_append, length_textField, List.length_replicate, List.length_cons,
    List.length_nil, hnumber, hback]

/-! ## The whole message -/

/-- There is no tag line, or `remove_ctrl_a` leaves nothing of it. -/
def NoTagLine (mode : Mode) (sub : Option Sub) : Prop :=
  mode.tagline → ∀ s, sub = some s → s.noTag ∨ tagLine mode s 0 = []

theorem addTagLine_print (hsub : sub = none → ¬mode.tagline) (tear : ℕ) (s : Export) :
    ∃ text, addTagLine mode sub tear s = some (s.print text) ∧
      (tear = 0 → (text = [] ↔ NoTagLine mode sub)) := by
  rw [addTagLine]
  by_cases hmode : mode.tagline
  · cases sub with
    | none => exact absurd hmode (hsub rfl)
    | some sub =>
        by_cases htag : sub.noTag
        · exact ⟨[], by simp [hmode, htag], fun _ ↦ by simp [NoTagLine, htag]⟩
        · refine ⟨tagLine mode sub tear, by simp [hmode, htag], ?_⟩
          rintro rfl
          simp [NoTagLine, hmode, htag]
  · exact ⟨[], by simp [hmode], fun _ ↦ by simp [NoTagLine, hmode]⟩

theorem endText_print (s : TextState) : ∃ text, endText s = s.out.print text ∧
    (text = [] ↔ s.ch = qwkNewline) := by
  rw [endText]
  by_cases h : s.ch = qwkNewline
  · exact ⟨[], by simp [h], by simp [h]⟩
  · exact ⟨[qwkNewline], by rw [if_pos h, Export.grow_fputc], by simp [h]⟩

theorem patchHeader_print {header : Str} (fp : Stream UInt8) (body : Str)
    (hlen : qwkBlockLen ≤ header.length) :
    patchHeader fp.pos header
        (Export.print ⟨fp.write 0 (List.replicate qwkBlockLen 32), 0⟩ body) =
      ⟨fp.write 0 (header.take qwkBlockLen ++ body), body.length⟩ := by
  have hblock : (header.take qwkBlockLen).length =
      (List.replicate qwkBlockLen (32 : UInt8)).length := by
    rw [List.length_take, List.length_replicate, Nat.min_eq_left hlen]
  have hne : header.take qwkBlockLen ≠ [] := by
    apply List.ne_nil_of_length_pos
    rw [hblock, List.length_replicate]
    decide
  have hwrite := @Stream.write_again _ 0 fp body _ _ hne hblock
  rw [patchHeader, Export.print, ← Stream.write_append]
  simp only [Stream.pos_write, Stream.seek, Nat.zero_add] at hwrite ⊢
  rw [hwrite]

/-- Behind the header all that has been written has been counted. -/
theorem msgtoqwk_eq (env : Env) (conf : Int32) {buf : Str} (fp : Stream UInt8)
    (htext : msg.text = some buf) (hsub : sub = none → ¬mode.tagline) : ∃ body : Str,
    msgtoqwk env mode sub conf msg fp =
      some (fp.write 0 ((headerText env mode sub conf msg body.length).take qwkBlockLen ++ body),
        body.length) ∧
    qwkBlockLen ∣ body.length ∧
    (body = [] ↔
      NoKludges env mode sub msg ∧ SilentlyEnds mode (cstr buf) ∧ NoTagLine mode sub) := by
  set blank : Export := ⟨fp.write 0 (List.replicate qwkBlockLen 32), 0⟩ with hblank
  set kl := (kludges env mode sub msg).flatten with hkl
  have hkludges : kl = [] ↔ NoKludges env mode sub msg := kludges_flatten
  set t := textLoop mode (sub.any Sub.ascii) true 0 ⟨blank.print kl, 0, 0, 0⟩ (cstr buf) with ht
  obtain ⟨txt, hout, htear, hiff⟩ :=
    textLoop_writes mode (sub.any Sub.ascii) true 0 ⟨blank.print kl, 0, 0, 0⟩ (cstr buf)
  rw [← ht] at hout htear hiff
  obtain ⟨nl, hend, hnl⟩ := endText_print t
  obtain ⟨tag, htagline, htag⟩ := addTagLine_print hsub t.tear (endText t)
  obtain ⟨n, hpad, hdvd, hzero⟩ := pad_eq ((endText t).print tag)
  set body := kl ++ (txt ++ (nl ++ (tag ++ List.replicate n 32))) with hbody
  have hall : pad ((endText t).print tag) = blank.print body := by
    rw [hpad, hend, hout, hbody]
    simp only [Export.print_append]
  have hsize : body.length = (pad ((endText t).print tag)).size := by
    rw [hall]
    exact (Nat.zero_add _).symm
  refine ⟨body, ?_, ?_, ?_⟩
  · rw [msgtoqwk, htext]
    simp only [Export.foldl_print, ← hblank, ← hkl, ← ht, htagline, hall, Option.bind_eq_bind,
      Option.bind_some]
    have hcount : (blank.print body).size = body.length := Nat.zero_add _
    rw [hcount, hblank, patchHeader_print fp body (le_length_headerText ..)]
    rfl
  · rw [hsize, hpad]
    simpa [Export.print, Nat.add_assoc] using hdvd
  · have hch : (0 : UInt8) ≠ qwkNewline := by decide
    have hsilent : txt = [] ∧ t.ch = qwkNewline ↔ SilentlyEnds mode (cstr buf) := by
      rw [hiff]
      exact or_iff_right fun h ↦ hch h.2
    rw [← hkludges, ← hsilent, ← hnl]
    constructor
    · intro h
      obtain ⟨hkl, h⟩ := List.append_eq_nil_iff.mp h
      obtain ⟨htxt, h⟩ := List.append_eq_nil_iff.mp h
      obtain ⟨hnone, h⟩ := List.append_eq_nil_iff.mp h
      exact ⟨hkl, ⟨htxt, hnone⟩, (htag (htear htxt)).mp (List.append_eq_nil_iff.mp h).1⟩
    · rintro ⟨hkl, ⟨htxt, hnone⟩, hno⟩
      have htagNone := (htag (htear htxt)).mpr hno
      have hn : n = 0 := by
        apply hzero
        rw [hend, hout, hkl, htxt, hnone, htagNone]
        rfl
      rw [hbody, hkl, htxt, hnone, htagNone, hn]
      rfl

/-- A message of `size` bytes behind its header block, in which a reader finds how many blocks
lie up to the next one. -/
structure Accounts (fp fp' : Stream UInt8) (size : ℕ) : Prop where
  positive : 0 < size
  multiple : qwkBlockLen ∣ size
  pos : fp'.pos = fp.pos + qwkBlockLen + size
  written : ∃ header body, header.length = qwkBlockLen ∧ body.length = size ∧
    fp' = fp.write 0 (header ++ body) ∧ (size / qwkBlockLen < 999998 →
      (header.drop 116).take 6 = numberField 6 (size / qwkBlockLen + 1))

/-- `msgtoqwk` accounts for what it writes, except for a message of which nothing is written. -/
theorem msgtoqwk_iff (env : Env) (mode : Mode) (sub : Option Sub) (conf : Int32) (msg : Msg)
    (fp : Stream UInt8) (buf : Str) (htext : msg.text = some buf)
    (hsub : sub = none → ¬mode.tagline)
    (hconf : mode.rep → 0 ≤ conf.toInt ∧ conf.toInt < 2 ^ 16) :
    (∃ fp' size, msgtoqwk env mode sub conf msg fp = some (fp', size) ∧ Accounts fp fp' size) ↔
      ¬(NoKludges env mode sub msg ∧ SilentlyEnds mode (cstr buf) ∧ NoTagLine mode sub) := by
  obtain ⟨body, hresult, hdvd, hiff⟩ := msgtoqwk_eq env conf fp htext hsub
  rw [← hiff, hresult]
  set header := (headerText env mode sub conf msg body.length).take qwkBlockLen with hheader
  have hlen : header.length = qwkBlockLen := by
    rw [hheader, List.length_take, Nat.min_eq_left (le_length_headerText ..)]
  constructor
  · rintro ⟨fp', size, h, haccounts⟩
    obtain ⟨rfl, rfl⟩ := Prod.mk.inj (Option.some.inj h)
    rintro rfl
    exact lt_irrefl 0 haccounts.positive
  · intro hne
    refine ⟨_, _, rfl, List.length_pos_iff.mpr hne, hdvd, ?_, header, body, hlen, rfl, rfl, ?_⟩
    · rw [Stream.pos_write, List.length_append, hlen, Nat.add_assoc]
    · exact blocks_headerText env sub msg hconf

/-! ## A text of one dropped code -/

def noMode : Mode := ⟨false, false, false, false, false, false, false, false, false⟩

def plainEnv : Env where
  anonymousText := []
  sysop := false
  qwkExt := false
  restQ := false
  getMsgid _ := []
  remsg _ := .error []
  timestr _ := []
  localtime _ := none

/-- A public message from A to B. -/
def publicMsg (text : Str) : Msg where
  fromName := [65]
  toName := [66]
  subj := [67]
  fromNet := .none
  toNet := .none
  forwarded := false
  anonymous := false
  priv := false
  read := false
  number := 1
  threadBack := 0
  time := 0
  zone := 0
  replyId := none
  replyto := none
  hfields := []
  text := some text

def plainSub : Sub := ⟨false, false, []⟩

/-- A message that is exported to an empty packet. -/
theorem msgtoqwk_hi :
    (∃ fp' size, msgtoqwk plainEnv noMode (some plainSub) 3 (publicMsg [72, 105]) ⟨[], 0⟩ =
      some (fp', size) ∧ Accounts ⟨[], 0⟩ fp' size) ↔
      ¬(NoKludges plainEnv noMode (some plainSub) (publicMsg [72, 105]) ∧
        SilentlyEnds noMode (cstr [72, 105]) ∧ NoTagLine noMode (some plainSub)) :=
  msgtoqwk_iff plainEnv noMode (some plainSub) 3 (publicMsg [72, 105]) ⟨[], 0⟩ [72, 105] rfl
    (fun h ↦ absurd h (by simp)) (fun h ↦ absurd h (by decide))

/-- The text is a Ctrl-A and the byte of a `QWK_NEWLINE`: nothing is written behind the header. -/
theorem not_msgtoqwk_accounts : ¬∃ fp' size,
    msgtoqwk plainEnv noMode (some plainSub) 3 (publicMsg [1, qwkNewline]) ⟨[], 0⟩ =
      some (fp', size) ∧ Accounts ⟨[], 0⟩ fp' size := by
  have hno : NoKludges plainEnv noMode (some plainSub) (publicMsg [1, qwkNewline]) :=
    kludges_flatten.mp rfl
  have htag : NoTagLine noMode (some plainSub) := fun h ↦ absurd h (by decide)
  have hsub : some plainSub = none → ¬noMode.tagline := fun h ↦ absurd h (by simp)
  obtain ⟨body, hresult, -, hiff⟩ := msgtoqwk_eq plainEnv 3 ⟨[], 0⟩
    (show (publicMsg [1, qwkNewline]).text = some [1, qwkNewline] from rfl) hsub
  have hnil : body = [] := hiff.mpr ⟨hno, .last, htag⟩
  rintro ⟨fp', size, h, haccounts⟩
  rw [hresult] at h
  obtain ⟨-, rfl⟩ := Prod.mk.inj (Option.some.inj h)
  rw [hnil] at haccounts
  exact lt_irrefl 0 haccounts.positive

end Synchronet.Sbbs3.MsgToQwk
