import Synchronet.Sbbs3.UserNumbers
import Synchronet.Xpdev.Genwrap

/-!
# A printf in steps (xpprintf.c)

A format string is copied behind two `size_t`: where the next conversion starts, zero when
there is none, and the length of the string.  Every step puts one argument into the string,
which is moved and grown for it.  The last step takes the `%%` pairs of the string for single
signs.  A step that reads or writes outside its memory has no result.
-/

namespace Synchronet.Xpdev.XpPrintf

open Sbbs3 (ultoa)
open Smblib (digitsValue)

/-- `MAX_ARG_LEN` -/
def maxArgLen : ℕ := 1024

/-- `MAX_FORMAT_LEN` -/
def maxFormatLen : ℕ := 256

/-! ## Arguments and the C library -/

/-- The types of xpprintf.h; `AUTO`, which is zero, is not one of them. -/
inductive ArgType
  | int | uint | char | long | ulong | longlong | ulonglong | charp | double | longdouble | voidp
  | intmax | uintmax | ptrdiff | sizet
  deriving DecidableEq

/-- An argument of the types `int` (and those that become one), `long` and `char*`. -/
inductive Arg
  | int (v : Int32)
  | long (v : Int64)
  | charp (cp : Option Str)

/-- `va_arg` for a type; the arguments of the other types are left out. -/
def suits : ArgType → Arg → Bool
  | .char, .int _ | .int, .int _ | .uint, .int _ => true
  | .long, .long _ | .ulong, .long _ => true
  | .charp, .charp _ => true
  | _, _ => false

def isFlag (c : UInt8) : Bool := c = 35 || c = 45 || c = 43 || c = 32 || c = 48 || c = 39

/-- The length modifier in front of a text, and the text behind it. -/
def scanModifier : Str → Option (Str × Str)
  | [] => none
  | c :: p =>
      if c = 104 ∨ c = 108 then
        match p with
        | [] => none
        | d :: p' => if d = c then some ([c, c], p') else some ([c], p)
      else if c = 106 ∨ c = 116 ∨ c = 122 ∨ c = 76 then some ([c], p)
      else some ([], c :: p)

/-- What a conversion asks for: its flags, width, precision, length modifier and type. -/
structure Directive where
  flags : Str
  width : Option ℕ
  precision : Option ℕ
  modifier : Str
  type : UInt8

/-- The conversion that is written in a format string. -/
def directive (spec : Str) : Directive :=
  let p := spec.drop 1
  let flags := p.takeWhile isFlag
  let p := p.dropWhile isFlag
  let width := p.takeWhile isdigit
  let p := p.dropWhile isdigit
  let precision := if p.head? = some 46 then some (digitsValue p.tail) else none
  let p := if p.head? = some 46 then p.tail.dropWhile isdigit else p
  let m := (scanModifier p).getD ([], [])
  { flags
    width := if width = [] then none else some (digitsValue width)
    precision
    modifier := m.1
    type := m.2.headD 0 }

/-- `sprintf` for one conversion with one argument, which fails for a result that is longer
than an `int` can tell. -/
structure CLibrary where
  convert : Directive → Arg → Option Str
  /-- The flag for leading zeros asks for nothing where there is no width. -/
  convert_zero : ∀ (d : Directive) (a : Arg),
    convert { d with flags := d.flags ++ [48], width := none } a =
      convert { d with width := some 0 } a
  length_convert_string : ∀ (d : Directive) (s out : Str), d.type = 115 →
    convert d (.charp (some s)) = some out → out.length ≤ max s.length (d.width.getD 0)
  length_convert : ∀ (d : Directive) (a : Arg) (out : Str),
    convert d a = some out → out.length < 2 ^ 31

/-- `sprintf` with `%d`. -/
def decimal (v : Int32) : Str :=
  if v < 0 then 45 :: ultoa v.toInt.natAbs 10 else ultoa v.toInt.natAbs 10

/-! ## Memory -/

def memmove (mem : List UInt8) (dst src n : ℕ) : Option (List UInt8) :=
  if src + n ≤ mem.length ∧ dst + n ≤ mem.length then
    some (mem.take dst ++ (mem.drop src).take n ++ mem.drop (dst + n))
  else none

def memcpy (mem : List UInt8) (dst : ℕ) (bytes : List UInt8) : Option (List UInt8) :=
  if dst + bytes.length ≤ mem.length then
    some (mem.take dst ++ bytes ++ mem.drop (dst + bytes.length))
  else none

/-- The bytes that `realloc` adds to a block are those that `heap` has for it. -/
def realloc (heap : List UInt8 → ℕ → UInt8) (mem : List UInt8) (n : ℕ) : List UInt8 :=
  mem.take n ++ (List.range' mem.length (n - mem.length)).map (heap mem)

/-- The string with what stands in front of it: the offset of the next conversion from the
start of the string, if there is one, and the length.  `text` is the memory from the start of
the string on. -/
structure Working where
  offset : Option ℕ
  len : ℕ
  text : List UInt8

/-- The search for the next conversion from `p` on. -/
def findFormat : ℕ → List UInt8 → Option (Option ℕ)
  | _, [] => none
  | p, c :: text =>
      if c = 0 then some none
      else if c = 37 then
        match text with
        | [] => none
        | d :: text => if d = 37 then findFormat (p + 2) text else some (some p)
      else findFormat (p + 1) text

/-! ## The type of the next argument -/

def skipWhile (pred : UInt8 → Bool) : List UInt8 → Option (List UInt8)
  | [] => none
  | c :: p => if pred c then skipWhile pred p else some (c :: p)

/-- The type for a length modifier and a conversion character. -/
def correctType (modifier : Str) (c : UInt8) : Option ArgType :=
  if c = 100 ∨ c = 105 then
    if modifier = [108] ∨ modifier = [122] then some .long
    else if modifier = [108, 108] then some .longlong
    else if modifier = [106] then some .intmax
    else if modifier = [116] then some .ptrdiff
    else some .int
  else if c = 111 ∨ c = 117 ∨ c = 120 ∨ c = 88 then
    if modifier = [108] ∨ modifier = [116] then some .ulong
    else if modifier = [108, 108] then some .ulonglong
    else if modifier = [106] then some .uintmax
    else if modifier = [122] then some .sizet
    else some .uint
  else if c = 97 ∨ c = 65 ∨ c = 101 ∨ c = 69 ∨ c = 102 ∨ c = 70 ∨ c = 103 ∨ c = 71 then
    if modifier = [76] then some .longdouble else some .double
  else if c = 67 ∨ c = 99 then some .char
  else if c = 83 ∨ c = 115 then some .charp
  else if c = 112 then some .voidp
  else none

/-- `xp_printf_get_type` behind the width. -/
def printfGetTypePrecision (p : List UInt8) : Option (Option ArgType) :=
  if p.head? = some 46 ∧ p.tail.head? = some 42 then some (some .int)
  else do
    let p ← skipWhile isdigit (if p.head? = some 46 then p.tail else p)
    let (modifier, p) ← scanModifier p
    let c ← p.head?
    pure (correctType modifier c)

/-- `xp_printf_get_type`, which has no type for what is no conversion. -/
def printfGetType (w : Working) : Option (Option ArgType) :=
  match w.offset with
  | none => some none
  | some offset =>
      match w.text.drop offset with
      | [] => none
      | c :: p =>
          if c ≠ 37 then some none
          else do
            let p ← skipWhile isFlag p
            if p.head? = some 42 then pure (some .int)
            else printfGetTypePrecision (← skipWhile isdigit p)

/-! ## Expanding -/

/-- A byte behind those of `this_format`. -/
def push (fmt : Str) (c : UInt8) : Option Str :=
  if fmt.length < maxFormatLen then some (fmt ++ [c]) else none

/-- A loop that copies to `this_format`. -/
def copyWhile (pred : UInt8 → Bool) : Str → List UInt8 → Option (Str × List UInt8)
  | _, [] => none
  | fmt, c :: p =>
      if pred c then do copyWhile pred (← push fmt c) p else some (fmt, c :: p)

section Expand

variable (lib : CLibrary) (heap : List UInt8 → ℕ → UInt8)

/-- An asterisk at `p` becomes its argument.  The block grows by the digits that are added, but
what is moved is a byte longer than what stands behind the asterisk. -/
def replaceStar (w : Working) (p : ℕ) : Arg → Option Working
  | .int v =>
      let digits := decimal v
      let i := digits.length
      if i > 1 then do
        let text := realloc heap w.text (w.len + 1 + i - 1)
        let text ← memmove text (p + i) (p + 1) (w.len + 1 - p)
        let text ← memcpy text p digits
        pure { w with len := w.len + i - 1, text }
      else do
        let text ← memcpy w.text p digits
        pure { w with text }
  | _ => none

/-- What `sprintf` writes for the conversion, if it does not fail: to `entry_buf`, or for a long
string to a block that has room for the string, the width and the precision. -/
def sprintfEntry (fmt : Str) (width precision : ℕ) : Arg → Option (Option Str)
  | .charp (some cp) =>
      let s := max (max cp.length width) precision
      let room := if s ≥ maxArgLen then s + 1 else maxArgLen
      match lib.convert (directive fmt) (.charp (some cp)) with
      | none => some none
      | some entry => if entry.length < room then some (some entry) else none
  | arg =>
      let arg := match arg with
        | .charp none => .charp (some [60, 110, 117, 108, 108, 62])
        | arg => arg
      match lib.convert (directive fmt) arg with
      | none => some none
      | some entry => if entry.length < maxArgLen then some (some entry) else none

/-- The text of a conversion, which is `formatLen` long, becomes what `sprintf` wrote. -/
def splice (w : Working) (offset formatLen : ℕ) : Option Str → Option Working
  | some entry => do
      let j := entry.length
      let text :=
        if w.len + 1 < w.len + 1 - formatLen + j then
          realloc heap w.text (w.len + 1 - formatLen + j)
        else w.text
      let text ← memmove text (offset + j) (offset + formatLen) (w.len + 1 - offset - formatLen)
      let text ← memcpy text offset entry
      let next ← findFormat (offset + j) (text.drop (offset + j))
      pure ⟨next, w.len + j - formatLen, text⟩
  | none => do
      let next ← findFormat (offset + formatLen) (w.text.drop (offset + formatLen))
      pure ⟨next, w.len - formatLen - 1, w.text⟩

/-- `xp_asprintf_next` behind the precision. -/
def nextConversion (w : Working) (offset : ℕ) (fmt : Str) (p : List UInt8)
    (width precision : ℕ) (arg : Arg) : Option Working := do
  let (modifier, p) ← scanModifier p
  let fmt ← modifier.foldlM push fmt
  let fmt ← push fmt (← p.head?)
  let _ ← push fmt 0
  splice heap w offset fmt.length (← sprintfEntry lib fmt width precision arg)

/-- `strtoul` where a digit stands. -/
def number (p : List UInt8) : ℕ := min (digitsValue p) (2 ^ 64 - 1)

/-- `xp_asprintf_next` behind the width. -/
def nextPrecision (w : Working) (offset : ℕ) (fmt : Str) (p : List UInt8) (width : ℕ)
    (arg : Arg) : Option Working :=
  if p.head? = some 46 then do
    let fmt ← push fmt 46
    if p.tail.head? = some 42 then replaceStar heap w (offset + fmt.length) arg
    else do
      let (fmt, p') ← copyWhile isdigit fmt p.tail
      nextConversion lib heap w offset fmt p' width (number p.tail) arg
  else nextConversion lib heap w offset fmt p width 0 arg

/-- `xp_asprintf_next` -/
def asprintfNext (w : Working) (arg : Arg) : Option Working :=
  match w.offset with
  | none => some w
  | some offset =>
      match w.text.drop offset with
      | [] => none
      | c :: p => do
          let (fmt, p) ← copyWhile isFlag [c] p
          if p.head? = some 42 then replaceStar heap w (offset + fmt.length) arg
          else do
            let (fmt, p') ← copyWhile isdigit fmt p
            nextPrecision lib heap w offset fmt p' (number p) arg

/-! ## The whole run -/

/-- `xp_asprintf_start` -/
def asprintfStart (format : Str) : Option Working := do
  let text := format ++ [0]
  pure ⟨← findFormat 0 text, format.length, text⟩

/-- The loop of `xp_asprintf_end` from `p` on, with `len` bytes to go. -/
def endLoop (text : List UInt8) (p endLen : ℕ) : ℕ → Option (List UInt8 × ℕ)
  | 0 => some (text, endLen)
  | n + 1 => do
      if (← text[p]?) = 37 then
        if (← text[p + 1]?) = 37 then
          let text ← memmove text p (p + 1) (n + 1)
          match n with
          | 0 => none
          | n + 1 => endLoop text (p + 1) (endLen - 1) n
        else endLoop text (p + 1) endLen n
      else endLoop text (p + 1) endLen n

/-- `xp_asprintf_end`: the string and its terminator. -/
def asprintfEnd (w : Working) : Option Str := do
  let (text, endLen) ← endLoop w.text 0 w.len w.len
  if endLen + 1 ≤ text.length then some (text.take (endLen + 1)) else none

/-- The loop of `xp_vasprintf`; its result is empty where it gives up, and there is none for an
argument that is missing or of another type, or a type that the switch does not know. -/
def expand : Working → List Arg → Option (Option Working)
  | w, args =>
      match w.offset with
      | none => some (some w)
      | some _ => do
          match ← printfGetType w with
          | none => pure none
          | some type =>
              match args with
              | [] => none
              | arg :: args =>
                  if suits type arg then do expand (← asprintfNext lib heap w arg) args else none

/-- `xp_vasprintf`: the string with its terminator, or nothing where it returns `NULL`. -/
def vasprintf (format : Str) (args : List Arg) : Option (Option Str) := do
  match ← expand lib heap (← asprintfStart format) args with
  | none => pure none
  | some w => do pure (some (← asprintfEnd w))

end Expand

end Synchronet.Xpdev.XpPrintf
