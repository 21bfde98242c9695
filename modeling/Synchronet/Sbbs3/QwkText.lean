import Synchronet.Lib.Trim
import Synchronet.Xpdev.Genwrap
import Synchronet.Sbbs3.Ars
import Mathlib.Data.List.Infix
import Mathlib.Tactic.Cases

/-!
# The text of a QWK message (msgtoqwk.cpp, qwktomsg.cpp)

`msgtoqwk` writes a message with one byte for a line end and pads it to blocks of 128 bytes.
`qwk_import_msg` expands the line ends again and takes the text from the first tear line on for
the tail of the message.  It counts columns in a `char`.  Options left out of the export are
the expansion to ANSI sequences, the translation to ASCII and the tag line, and with the last
the count of lines behind a tear line.
-/

namespace Synchronet.Sbbs3.Qwk

open Xpdev (Str truncsp)
open Smblib (strlwr)

def qwkNewline : UInt8 := 0xe3

def qwkBlockLen : ℕ := 128

/-! ## Export -/

def validCtrlAAttr (a : UInt8) : Bool :=
  toupper a ∈ ([43, 45, 95, 66, 67, 71, 72, 73, 75, 77, 78, 82, 87, 89,
    48, 49, 50, 51, 52, 53, 54, 55] : Str)

def validCtrlACode (a : UInt8) : Bool :=
  toupper a ∈ ([80, 76, 44] : Str) || validCtrlAAttr a

/-- A form feed, a backspace, CR or LF, or zero. -/
def ctrlAToAsciiChar (a : UInt8) : UInt8 :=
  match toupper a with
  | 76 => 12
  | 60 => 8
  | 91 => 13
  | 93 => 10
  | _ => 0

/-- The loop of `msgtoqwk` over the text, with the byte before and the last value of `ch`.
`leave` is the mode `A_LEAVE`. -/
def exportLoop (leave : Bool) (prev ch : UInt8) : Str → Str × UInt8
  | [] => ([], ch)
  | 10 :: rest =>
      let ch := if prev = 13 then qwkNewline else 10
      let r := exportLoop leave 10 ch rest
      (ch :: r.1, r.2)
  | 13 :: rest => exportLoop leave 13 13 rest
  | 1 :: [] => ([], 0)
  | 1 :: a :: rest =>
      if toupper a = 90 then ([], a)
      else
        let r := exportLoop leave a a rest
        if ctrlAToAsciiChar a ≠ 0 then (ctrlAToAsciiChar a :: r.1, r.2)
        else if leave && validCtrlACode a then (1 :: a :: r.1, r.2)
        else r
  | c :: rest =>
      let ch := if c = qwkNewline then 42 else c
      let r := exportLoop leave c ch rest
      (ch :: r.1, r.2)

/-- The blocks of a message without kludge lines. -/
def msgtoqwk (leave : Bool) (buf : Str) : Str :=
  let (text, ch) := exportLoop leave 0 0 buf
  let text := if ch ≠ qwkNewline then text ++ [qwkNewline] else text
  text ++ List.replicate ((qwkBlockLen - text.length % qwkBlockLen) % qwkBlockLen) 32

/-! ## Import -/

/-- Who imports, and the restrictions that count if this is no hub.  With `ext` the lines `To:`,
`From:` and `Subject:` at the top are kludge lines as well. -/
structure Importer where
  fromHub : Bool
  ext : Bool
  restB : Bool
  restA : Bool

structure Import where
  body : Str
  tail : Str
  col : UInt8
  lastch : UInt8
  kludges : List Str

def start : Import := ⟨[], [], 0, 0, []⟩

def tear : Str := [45, 45, 45]

def atTear (s : Import) : Prop := s.tail = [] ∧ s.col = 3 ∧ tear <:+ s.body

instance (s : Import) : Decidable (atTear s) := instDecidableAnd

/-- The three dashes go from the body to the tail. -/
def splitTear (s : Import) : Import :=
  { s with
    body := s.body.take (s.body.length - 3)
    tail := tear }

/-- A `QWK_NEWLINE` -/
def newline (s : Import) : Import :=
  if s.body = [] ∧ s.tail = [] then s
  else
    let s := if atTear s then splitTear s else s
    if s.tail ≠ [] then { s with tail := s.tail ++ [13, 10], col := 0 }
    else { s with body := s.body ++ [13, 10], col := 0 }

/-- Any other character.  A Ctrl-A is dropped again when no valid code follows. -/
def keepChar (s : Import) (c : UInt8) : Import :=
  let col := if c ≠ 1 ∧ s.lastch ≠ 1 then s.col + 1 else s.col
  if s.lastch = 1 ∧ ¬validCtrlACode c then
    if s.tail ≠ [] then { s with tail := s.tail.dropLast, col, lastch := 0 }
    else { s with body := s.body.dropLast, col, lastch := 0 }
  else if s.tail ≠ [] then { s with tail := s.tail ++ [c], col, lastch := c }
  else { s with body := s.body ++ [c], col, lastch := c }

/-- A character behind the kludge lines. -/
def importChar (o : Importer) (s : Import) (c : UInt8) : Import :=
  if c = 32 ∧ atTear s then
    { splitTear s with
      tail := tear ++ [32]
      col := s.col + 1 }
  else if c = qwkNewline then newline s
  else if ¬o.fromHub ∧ c = 7 ∧ o.restB then s
  else if ¬o.fromHub ∧ (c = 1 ∨ c = 27) ∧ o.restA then s
  else keepChar s c

/-- Whether `strnicmp(text, name, strlen(name))` is zero; `none` when it reads behind the text. -/
def hasName : Str → Str → Option Bool
  | [], _ => some true
  | _ :: _, [] => none
  | n :: name, c :: text => if strlwr [c] = strlwr [n] then hasName name text else some false

/-- `strchr(text, QWK_NEWLINE)`; `none` when it reads behind the text. -/
def strchrNewline : Str → Option (Option ℕ)
  | [] => none
  | c :: text =>
      if c = qwkNewline then some (some 0)
      else if c = 0 then some none
      else (strchrNewline text).map (Option.map (· + 1))

/-- `To:`, `From:` and `Subject:` -/
def headerNames : List Str :=
  [[84, 111, 58], [70, 114, 111, 109, 58], [83, 117, 98, 106, 101, 99, 116, 58]]

/-- Whether one of the names stands at the start of the text. -/
def hasNameOf (text : Str) : List Str → Option Bool
  | [] => some false
  | name :: names => do
      if ← hasName name text then return true
      hasNameOf text names

/-- Whether a line at the top is a kludge line. -/
def isKludge (o : Importer) (text : Str) : Option Bool :=
  if text.head? = some 64 then some true
  else if o.ext then hasNameOf text headerNames
  else some false

/-- What the loop does at a character: it goes through the tests, is put into the body as it is,
or starts a kludge line of the given length. -/
inductive Look
  | text
  | char
  | line (length : ℕ)

def look (o : Importer) (s : Import) (text : Str) : Option Look :=
  if s.body ≠ [] then some .text
  else do
    if ← isKludge o text then
      match ← strchrNewline text with
      | none => return .char
      | some length => return .line length
    else return .text

/-- The loop of `qwk_import_msg`; `none` when it reads behind the blocks. -/
def importLoop (o : Importer) (s : Import) : Str → Option Import
  | [] => some s
  | c :: rest =>
      if c = 0 then importLoop o s rest
      else
        match look o s (c :: rest) with
        | none => none
        | some .text => importLoop o (importChar o s c) rest
        | some .char => importLoop o { s with body := s.body ++ [c] } rest
        | some (.line length) =>
            importLoop o { s with kludges := s.kludges ++ [(c :: rest).take length] }
              (rest.drop length)
  termination_by text => text.length
  decreasing_by all_goals simp only [List.length_drop, List.length_cons]; omega

/-- Trailing spaces and one line end. -/
def trimBody (body : Str) : Str :=
  let body := body.rdropWhile (· = 32)
  if [13, 10] <:+ body then body.take (body.length - 2) else body

/-- `while(taillen && tail[taillen-1]<=' ')`, where a `char` is signed. -/
def trimTail (tail : Str) : Str := tail.rdropWhile fun c ↦ c ≤ 32 ∨ 128 ≤ c

/-- The body and the tail that `qwk_import_msg` makes of the blocks. -/
def qwkImportMsg (o : Importer) (blocks : Str) : Option (Str × Str) :=
  (importLoop o ⟨[], [], 0, 0, []⟩ blocks).map fun s ↦ (trimBody s.body, trimTail s.tail)

/-- The text of a message with the given body and tail. -/
def joined (body tail : Str) : Str := if tail = [] then body else body ++ [13, 10] ++ tail

end Synchronet.Sbbs3.Qwk
