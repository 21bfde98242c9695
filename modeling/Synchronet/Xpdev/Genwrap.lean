import Synchronet.Lib.Words
import Synchronet.Smblib.Index
import Mathlib.Data.List.DropRight

/-!
# Strings and escapes (genwrap.c)

C strings are lists of bytes without the terminating zero.  Where a function leaves the
memory that it was given, the result is `none`.
-/

namespace Synchronet.Xpdev

open Smblib (isspace strlwr cstr)

abbrev Str := List UInt8

/-- Whether `stricmp` of the two strings is zero. -/
def stricmp (a b : Str) : Bool := strlwr a == strlwr b

/-- Whether `strnicmp(a, b, strlen(b))` is zero. -/
def strnicmp (a b : Str) : Bool := strlwr (a.take b.length) == strlwr b

def strchr (s : Str) (c : UInt8) : Option ℕ := s.idxOf? c

def strrchr (s : Str) (c : UInt8) : Option ℕ :=
  (s.reverse.idxOf? c).map fun i ↦ s.length - 1 - i

/-- `SAFECOPY` to a buffer of `size` bytes. -/
def safecopy (size : ℕ) (src : Str) : Str := src.take (size - 1)

def skipWhitespace (s : Str) : Str := s.dropWhile isspace

def truncsp (s : Str) : Str := s.rdropWhile isspace

def truncnl (s : Str) : Str := s.rdropWhile fun c ↦ c = 13 ∨ c = 10

/-! ## Escapes -/

def isdigit (c : UInt8) : Bool := 48 ≤ c ∧ c ≤ 57

def isxdigit (c : UInt8) : Bool := isdigit c ∨ (65 ≤ c ∧ c ≤ 70) ∨ (97 ≤ c ∧ c ≤ 102)

/-- `HEX_CHAR_TO_INT` -/
def hexCharToInt (c : UInt8) : UInt8 := (c &&& (0xf : UInt8)) + (c >>> 6 &&& (1 : UInt8)) * 9

/-- `DEC_CHAR_TO_INT` -/
def decCharToInt (c : UInt8) : UInt8 := c &&& 0xf

def cUnescapeChar (c : UInt8) : UInt8 :=
  match c with
  | 101 => 27
  | 97 => 7
  | 98 => 8
  | 102 => 12
  | 110 => 10
  | 114 => 13
  | 116 => 9
  | 118 => 11
  | c => c

/-- The digits of a character literal, at most `n` of them, and the rest of the string. -/
def literalDigits (digit : UInt8 → Bool) (toInt : UInt8 → UInt8) (base : UInt8) :
    ℕ → UInt8 → Str → UInt8 × Str
  | 0, ch, str => (ch, str)
  | _, ch, [] => (ch, [])
  | n + 1, ch, c :: str =>
      if digit c then literalDigits digit toInt base n (ch * base + toInt c) str else (ch, c :: str)

/-- `c_unescape_char_ptr`: the character that the text behind a backslash stands for, and
where that text ends.  At the end of the string the pointer moves behind the zero. -/
def cUnescapeCharPtr : Str → Option (UInt8 × Str)
  | [] => none
  | c :: str =>
      if c = 120 then some (literalDigits isxdigit hexCharToInt 16 2 0 str)
      else if isdigit c then some (literalDigits isdigit decCharToInt 10 3 0 (c :: str))
      else some (cUnescapeChar c, str)

/-- The loop of `c_unescape_str`, which reads at least one byte in each of its rounds. -/
def cUnescapeLoop : ℕ → Str → Option Str
  | _, [] => some []
  | 0, _ :: _ => none
  | fuel + 1, ch :: src =>
      if ch = 92 then do
        let (ch, src) ← cUnescapeCharPtr src
        let dst ← cUnescapeLoop fuel src
        some (ch :: dst)
      else do
        let dst ← cUnescapeLoop fuel src
        some (ch :: dst)

/-- `c_unescape_str`: a zero among the characters ends the string. -/
def cUnescapeStr (str : Str) : Option Str := (cUnescapeLoop str.length str).map cstr

def cEscapeChar (ch : UInt8) : Option Str :=
  match ch with
  | 0 => some [92, 120, 48, 48]
  | 1 => some [92, 120, 48, 49]
  | 27 => some [92, 101]
  | 7 => some [92, 97]
  | 8 => some [92, 98]
  | 12 => some [92, 102]
  | 10 => some [92, 110]
  | 13 => some [92, 114]
  | 9 => some [92, 116]
  | 11 => some [92, 118]
  | 92 => some [92, 92]
  | 34 => some [92, 34]
  | 39 => some [92, 39]
  | _ => none

/-- The digit of `%X`. -/
def hexDigit (n : UInt8) : UInt8 := if n < 10 then 48 + n else 55 + n

/-- `c_escape_str` of `src`, with `room` bytes left before `maxlen`.  `strncpy` of an escape
that is not shorter than the room leaves no zero behind it, and `strlen` runs on. -/
def cEscapeStr (ctrlOnly : Bool) : ℕ → Str → Option Str
  | _, [] => some []
  | 0, _ :: _ => some []
  | room + 1, c :: src =>
      match if !ctrlOnly ∨ c < 32 then cEscapeChar c else none with
      | some e =>
          if e.length < room + 1 then (cEscapeStr ctrlOnly (room + 1 - e.length) src).map (e ++ ·)
          else none
      | none =>
          if c < 32 then
            let e := safecopy (room + 1) [92, 120, hexDigit (c >>> 4), hexDigit (c &&& 0xf)]
            (cEscapeStr ctrlOnly (room + 1 - e.length) src).map (e ++ ·)
          else (cEscapeStr ctrlOnly room src).map (c :: ·)

/-! ## What is read back from an escaped string -/

/-- The bytes that `c_escape_str` writes for a character, control characters or not. -/
def escapeOf (c : UInt8) : Str :=
  match cEscapeChar c with
  | some e => e
  | none => if c < 32 then [92, 120, hexDigit (c >>> 4), hexDigit (c &&& 0xf)] else [c]

def escaped (s : Str) : Str := s.flatMap escapeOf

theorem escapeOf_ne_nil (c : UInt8) : escapeOf c ≠ [] :=
  Words.forall_uint8 (p := fun c ↦ escapeOf c ≠ []) (by decide +kernel) c

/-- A backslash with one character, a hexadecimal escape, or the character itself. -/
def escapes (c : UInt8) : Str → Bool
  | [d] => d = c ∧ c ≠ 92
  | [b, d] => b = 92 ∧ d ≠ 120 ∧ isdigit d = false ∧ cUnescapeChar d = c
  | [b, x, h, l] => (b = 92 ∧ x = 120) ∧ isxdigit h = true ∧ isxdigit l = true ∧
      hexCharToInt h * 16 + hexCharToInt l = c
  | _ => false

theorem escapes_escapeOf (c : UInt8) : escapes c (escapeOf c) = true :=
  Words.forall_uint8 (p := fun c ↦ escapes c (escapeOf c) = true) (by decide +kernel) c

/-- One round of the loop reads an escape. -/
theorem cUnescapeLoop_append {c : UInt8} {e : Str} (he : escapes c e = true) (s : Str)
    (fuel : ℕ) : cUnescapeLoop (fuel + 1) (e ++ s) = (cUnescapeLoop fuel s).map (c :: ·) := by
  match e, he with
  | [d], he =>
      obtain ⟨rfl, hd⟩ := by simpa [escapes] using he
      simp [cUnescapeLoop, hd, Option.map_eq_bind]
  | [b, d], he =>
      obtain ⟨rfl, hx, hd, hc⟩ := by simpa [escapes] using he
      simp [cUnescapeLoop, cUnescapeCharPtr, hx, hd, hc, Option.map_eq_bind]
  | [b, x, h, l], he =>
      obtain ⟨⟨rfl, rfl⟩, hh, hl, hc⟩ := by simpa [escapes] using he
      simp [cUnescapeLoop, cUnescapeCharPtr, literalDigits, hh, hl, hc, Option.map_eq_bind]

theorem cUnescapeLoop_escapeOf (c : UInt8) (s : Str) (fuel : ℕ) :
    cUnescapeLoop (fuel + 1) (escapeOf c ++ s) = (cUnescapeLoop fuel s).map (c :: ·) :=
  cUnescapeLoop_append (escapes_escapeOf c) s fuel

theorem length_le_escaped (s : Str) : s.length ≤ (escaped s).length := by
  induction s with
  | nil => simp
  | cons c s ih =>
      have := List.length_pos_iff.mpr (escapeOf_ne_nil c)
      simp only [escaped, List.flatMap_cons, List.length_append, List.length_cons] at *
      omega

theorem cUnescapeLoop_escaped (s : Str) (fuel : ℕ) (h : s.length ≤ fuel) :
    cUnescapeLoop fuel (escaped s) = some s := by
  induction s generalizing fuel with
  | nil => cases fuel <;> rfl
  | cons c s ih =>
      obtain ⟨fuel, rfl⟩ : ∃ f, fuel = f + 1 := ⟨fuel - 1, by simp at h; omega⟩
      have hs := ih fuel (by simpa using h)
      rw [escaped, List.flatMap_cons, cUnescapeLoop_escapeOf, ← escaped, hs]
      rfl

/-- `c_unescape_str` undoes `c_escape_str`. -/
theorem cUnescapeStr_escaped (s : Str) (h : 0 ∉ s) : cUnescapeStr (escaped s) = some s := by
  rw [cUnescapeStr, cUnescapeLoop_escaped s _ (length_le_escaped s), Option.map_some, cstr,
    List.takeWhile_eq_self_iff.mpr]
  intro c hc
  simpa using ne_of_mem_of_not_mem hc h

/-- With room for all of it, and one byte more, `c_escape_str` writes the escapes. -/
theorem cEscapeStr_eq (s : Str) (room : ℕ) (h : (escaped s).length < room) :
    cEscapeStr false room s = some (escaped s) := by
  induction s generalizing room with
  | nil => cases room <;> rfl
  | cons c s ih =>
      obtain ⟨room, rfl⟩ : ∃ r, room = r + 1 := ⟨room - 1, by omega⟩
      have hlen : (escapeOf c).length + (escaped s).length < room + 1 := by
        simpa [escaped] using h
      have hcons : escaped (c :: s) = escapeOf c ++ escaped s := by simp [escaped]
      rw [hcons]
      cases he : cEscapeChar c with
      | some e =>
          have : escapeOf c = e := by simp [escapeOf, he]
          rw [this] at hlen ⊢
          simp [cEscapeStr, he, ih (room + 1 - e.length) (by omega), show e.length < room + 1 by omega]
      | none =>
          by_cases hc : c < 32
          · have : escapeOf c = [92, 120, hexDigit (c >>> 4), hexDigit (c &&& 0xf)] := by
              simp [escapeOf, he, hc]
            rw [this] at hlen ⊢
            have hrest := ih (room - 3) (by simp at hlen; omega)
            have hroom : safecopy (room + 1) [92, 120, hexDigit (c >>> 4), hexDigit (c &&& 0xf)] =
                [92, 120, hexDigit (c >>> 4), hexDigit (c &&& 0xf)] :=
              List.take_of_length_le (by simp at hlen ⊢; omega)
            simp [cEscapeStr, he, hc, hroom, hrest]
          · have : escapeOf c = [c] := by simp [escapeOf, he, hc]
            rw [this] at hlen ⊢
            have hrest := ih room (by simp at hlen; omega)
            simp [cEscapeStr, he, hc, hrest]

end Synchronet.Xpdev
