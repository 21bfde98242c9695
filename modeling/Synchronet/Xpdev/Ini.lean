import Synchronet.Xpdev.Genwrap

/-!
# Ini files (ini_file.c)

A file is the list of its bytes, a string list the list of its strings.  `none` as a section
is `ROOT_SECTION`.  A function whose result is `none` read or wrote outside its buffers.
-/

namespace Synchronet.Xpdev

open Smblib (cstr strlwr)

abbrev iniMaxValueLen : ℕ := 1024
abbrev iniMaxLineLen : ℕ := iniMaxValueLen * 2
abbrev iniCommentChar : UInt8 := 0x3b
abbrev iniOpenSectionChar : UInt8 := 0x5b
abbrev iniCloseSectionChar : UInt8 := 0x5d
abbrev iniSectionNameSep : UInt8 := 0x7c

/-- `!eof` -/
def iniEofDirective : Str := [0x21, 0x65, 0x6f, 0x66]

/-- `!include`, with the space behind it -/
def iniIncludeDirective : Str := [0x21, 0x69, 0x6e, 0x63, 0x6c, 0x75, 0x64, 0x65, 0x20]

/-! ## Lines -/

def isEof (str : Str) : Bool := str.head? = some 0x21 && stricmp (truncsp str) iniEofDirective

/-- The buffer behind a call of `is_eof`, which trims it where it starts with `!`. -/
def afterIsEof (str : Str) : Str := if str.head? = some 0x21 then truncsp str else str

def sectionName (p : Str) : Option Str :=
  match skipWhitespace p with
  | [] => none
  | c :: p =>
      if c ≠ iniOpenSectionChar then none
      else
        let p := skipWhitespace p
        (strrchr p iniCloseSectionChar).map fun tp ↦ truncsp (p.take tp)

/-- `strListSplitCopy` with the one delimiter; `strtok_r` skips empty tokens. -/
def strListSplit (str : Str) (delimit : UInt8) : List Str :=
  (str.splitOn delimit).filter (· ≠ [])

def sectionMatch (name compare : Str) (caseSensitive : Bool) : Bool :=
  let names := (strListSplit name iniSectionNameSep).map fun n ↦ skipWhitespace (truncsp n)
  let comps := (strListSplit compare iniSectionNameSep).map fun c ↦ skipWhitespace (truncsp c)
  names.any fun n ↦ comps.any fun c ↦ if caseSensitive then n == c else stricmp n c

/-- What `key_name` returns: no key, `INI_NEW_SECTION`, or the key with the offset of the
value in the line and the value. -/
inductive KeyName
  | null
  | newSection
  | key (name : Str) (vp : ℕ) (value : Str)
deriving DecidableEq

/-- The first `=` or `:`, and whether it is the latter. -/
def separator (p : Str) : Option (ℕ × Bool) :=
  match strchr p 0x3d, strchr p 0x3a with
  | equal, none => equal.map fun e ↦ (e, false)
  | none, some colon => some (colon, true)
  | some equal, some colon => some (if equal < colon then (equal, false) else (colon, true))

/-- A string literal without its quotes, and whether there was one to skip in front. -/
def unquote (v : Str) : Bool × Str :=
  match v with
  | 0x22 :: v => (true, match strrchr v 0x22 with
      | some tp => v.take tp
      | none => v)
  | v => (false, v)

def keyName (str : Str) (literalsSupported : Bool) : Option KeyName :=
  let p := skipWhitespace str
  if p.head? = some iniCommentChar then some .null
  else if p.head? = some iniOpenSectionChar then some .newSection
  else
    match separator p with
    | none => some .null
    | some (i, colon) =>
        let name := truncsp (p.take i)
        let v := skipWhitespace (p.drop (i + 1))
        let vp := str.length - v.length
        if literalsSupported && colon then
          let (quoted, v) := unquote (truncnl v)
          (cUnescapeStr v).map fun v ↦ .key name (if quoted then vp + 1 else vp) v
        else some (.key name vp (truncsp v))

/-! ## Files -/

/-- `fgets` with a buffer of `size` bytes: what is read, and the rest of the file. -/
def fgets (size : ℕ) (fp : List UInt8) : Option (List UInt8 × List UInt8) :=
  match fp with
  | [] => none
  | _ =>
      let chars := fp.take (size - 1)
      let line := chars.take (chars.idxOf 10 + 1)
      some (line, fp.drop line.length)

/-- What the calls of `fgets` read up to the end of the file, at most `n` of them. -/
def fgetsCalls (size : ℕ) : ℕ → List UInt8 → List (List UInt8)
  | 0, _ => []
  | n + 1, fp =>
      match fgets size fp with
      | none => []
      | some (line, rest) => line :: fgetsCalls size n rest

/-- Each call reads a byte, so that there are no more calls than bytes. -/
def fileLines (size : ℕ) (fp : List UInt8) : List (List UInt8) := fgetsCalls size fp.length fp

/-- One pass of `seek_section`: the lines behind the header. -/
def seekPass (section_ : Str) (caseSensitive : Bool) : List Str → Option (List Str)
  | [] => none
  | str :: fp =>
      if isEof str then none
      else if (sectionName (afterIsEof str)).any (sectionMatch · section_ caseSensitive) then some fp
      else seekPass section_ caseSensitive fp

/-- `seek_section`, with the file as the lines that `fgets` returns. -/
def seekSection (fp : List Str) : Option Str → Option (List Str)
  | none => some fp
  | some section_ => (seekPass section_ true fp).or (seekPass section_ false fp)

/-- The loop of `read_value`. -/
def readValueLoop (key : Str) (literalsSupported : Bool) : List Str → Option (Option Str)
  | [] => some none
  | str :: fp =>
      if isEof str then some none
      else
        match keyName (afterIsEof str) literalsSupported with
        | none => none
        | some .null => readValueLoop key literalsSupported fp
        | some .newSection => some none
        | some (.key p _ vp) =>
            if stricmp p key then some (some (vp.take (iniMaxValueLen - 1)))
            else readValueLoop key literalsSupported fp

def readValue (fp : List UInt8) (section_ : Option Str) (key : Str) (literalsSupported : Bool) :
    Option (Option Str) :=
  match seekSection ((fileLines iniMaxLineLen fp).map cstr) section_ with
  | none => some none
  | some fp => readValueLoop key literalsSupported fp

/-- `iniReadString`, with a default that may be a null pointer. -/
def iniReadString (fp : List UInt8) (section_ : Option Str) (key : Str) (deflt : Option Str) :
    Option (Option Str) :=
  (readValue fp section_ key true).map fun value ↦
    match value with
    | none => deflt
    | some value => if value = [] then deflt else some value

/-! ## Lists -/

/-- One pass of `find_section_index`: the index that it returns, if it does so. -/
def findPass (count : ℕ) (section_ : Str) (caseSensitive : Bool) : ℕ → List Str → Option ℕ
  | _, [] => none
  | i, s :: list =>
      let str := safecopy iniMaxValueLen s
      if isEof str then some count
      else if (sectionName (afterIsEof str)).any (sectionMatch · section_ caseSensitive) then some i
      else findPass count section_ caseSensitive (i + 1) list

def findSectionIndex (list : List Str) (section_ : Str) : ℕ :=
  ((findPass list.length section_ true 0 list).or
    (findPass list.length section_ false 0 list)).getD list.length

def findSection (list : List Str) : Option Str → ℕ
  | none => 0
  | some section_ =>
      let i := findSectionIndex list section_
      if i < list.length then i + 1 else i

/-- What `get_value` returns and stores: the index, the value, and where it starts in the
string at the index. -/
structure GetValue where
  i : ℕ
  value : Str := []
  vp : Option ℕ := none
deriving DecidableEq

/-- The loop of `get_value` over the strings from index `i` on. -/
def getValueLoop (key : Str) (literalsSupported : Bool) : ℕ → List Str → Option GetValue
  | i, [] => some { i }
  | i, s :: list =>
      let str := safecopy iniMaxLineLen s
      if isEof str then some { i }
      else
        match keyName (afterIsEof str) literalsSupported with
        | none => none
        | some .null => getValueLoop key literalsSupported (i + 1) list
        | some .newSection => some { i }
        | some (.key p vp value) =>
            if stricmp p key then some { i, value := value.take (iniMaxValueLen - 1), vp := some vp }
            else getValueLoop key literalsSupported (i + 1) list

def getValue (list : List Str) (section_ : Option Str) (key : Str) (literalsSupported : Bool) :
    Option GetValue :=
  let i := findSection list section_
  getValueLoop key literalsSupported i (list.drop i)

/-- `iniGetString` with a value buffer. -/
def iniGetString (list : List Str) (section_ : Option Str) (key : Str) (deflt : Option Str) :
    Option (Option Str) :=
  (getValue list section_ key true).map fun r ↦
    match r.vp with
    | none => deflt
    | some vp => if ((list.getD r.i []).drop vp) = [] then deflt else some r.value

/-! ## Reading a list from a file -/

abbrev iniIncludeMax : ℕ := 10000

def isInclude (s : Str) : Bool :=
  strlwr (s.take iniIncludeDirective.length) == strlwr iniIncludeDirective

/-- The line of an `!include` directive, as a comment that may end with a message. -/
def includeComment (s message : Str) : Str :=
  safecopy iniMaxLineLen (iniCommentChar :: s ++ message)

/-- The loop of `iniReadFile` over the lines.  `fopen` gives the file with a name, or the text
of the error. -/
def expandIncludes (fopen : Str → Except Str (List UInt8)) (incCounter : ℕ) :
    List Str → List Str
  | [] => []
  | s :: list =>
      if isInclude s then
        let p := skipWhitespace (s.drop iniIncludeDirective.length)
        let s := s.take (s.length - p.length) ++ truncsp p
        if _hmax : iniIncludeMax ≤ incCounter then
          includeComment s " - MAXIMUM INCLUDES REACHED: 10000".toUTF8.toList ::
            expandIncludes fopen incCounter list
        else
          match fopen (truncsp p) with
          | .error strerror =>
              includeComment s (" - FAILURE: ".toUTF8.toList ++ strerror) ::
                expandIncludes fopen incCounter list
          | .ok fp =>
              includeComment s [] :: expandIncludes fopen (incCounter + 1)
                ((fileLines (iniMaxLineLen + 1) fp).map cstr ++ list)
      else s :: expandIncludes fopen incCounter list
termination_by list => (iniIncludeMax - incCounter, list.length)

def iniReadFile (fopen : Str → Except Str (List UInt8)) (fp : List UInt8) : List Str :=
  (expandIncludes fopen 0 ((fileLines (iniMaxLineLen + 1) fp).map cstr)).map truncnl

theorem expandIncludes_eq_self (fopen : Str → Except Str (List UInt8)) (incCounter : ℕ)
    (list : List Str) (h : ∀ s ∈ list, isInclude s = false) :
    expandIncludes fopen incCounter list = list := by
  induction list with
  | nil => simp [expandIncludes]
  | cons s list ih =>
      have hs := h s (by simp)
      rw [expandIncludes, if_neg (by simp [hs]), ih fun t ht ↦ h t (by simp [ht])]

end Synchronet.Xpdev
