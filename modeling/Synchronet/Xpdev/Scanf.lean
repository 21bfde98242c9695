import Synchronet.Sbbs3.UserNumbers

/-!
# Scanning a string (sscanf)

The conversions that the library's parsers ask for.  Each comes with the variable that it sets,
and the result counts the variables that have been set; a failed match and the end of the text
are told apart by nothing here.  What reads a floating-point number is given.
-/

namespace Synchronet.Xpdev

open Smblib (isspace digitsValue)
open Sbbs3 (ultoa)

/-! ## Numbers with leading zeros -/

/-- `%0*u` -/
def zeroPadded (width n : ℕ) : Str := (ultoa n 10).leftpad width 48

variable {width n : ℕ} {rest : Str}

theorem length_zeroPadded (hpos : 0 < width) (h : n < 10 ^ width) :
    (zeroPadded width n).length = width := by
  rw [zeroPadded, List.length_leftpad]
  exact max_eq_left (Sbbs3.length_ultoa_le (by decide) hpos h)

theorem digits_zeroPadded (width n : ℕ) : ∀ c ∈ zeroPadded width n, 48 ≤ c ∧ c ≤ 57 := by
  intro c hc
  rw [zeroPadded, List.leftpad] at hc
  rcases List.mem_append.mp hc with hc | hc
  · rw [List.eq_of_mem_replicate hc]
    decide
  · exact Sbbs3.digits_ultoa n c hc

theorem digitsValue_zeroPadded (width n : ℕ) : digitsValue (zeroPadded width n) = n := by
  rw [zeroPadded, List.leftpad]
  induction width - (ultoa n 10).length with
  | zero => exact Sbbs3.digitsValue_ultoa n
  | succ k ih => rw [List.replicate_succ, List.cons_append, Sbbs3.digitsValue_zero_cons, ih]

/-! ## Conversions -/

/-- A directive of a format, with the variable that it sets. -/
inductive Directive (F σ : Type) where
  | lit (c : UInt8)
  | uint (width : ℕ) (set : UInt32 → σ → σ)
  | float (set : F → σ → σ)
  | str (width : ℕ) (set : Str → σ → σ)
  | skipStr

/-- `%*u`: white space, a sign and the digits; the sign counts as one character. -/
def scanUint (width : ℕ) (text : Str) : Option (UInt32 × Str) :=
  let text := text.dropWhile isspace
  let sign := if text.head? = some 45 ∨ text.head? = some 43 then 1 else 0
  let digits := ((text.drop sign).take (width - sign)).takeWhile isdigit
  let n := UInt32.ofNat (digitsValue digits)
  if digits = [] then none
  else some (if text.head? = some 45 then -n else n, text.drop (sign + digits.length))

/-- `%*s`: white space, and then up to `width` characters without any. -/
def scanWord (width : ℕ) (text : Str) : Option (Str × Str) :=
  let text := text.dropWhile isspace
  let word := (text.take width).takeWhile fun c ↦ !isspace c
  if word = [] then none else some (word, text.drop word.length)

variable {F σ : Type}

/-- How many variables are set, and what they are then. -/
def sscanf (read : Str → Option (F × Str)) : List (Directive F σ) → Str → σ → ℕ × σ
  | [], _, s => (0, s)
  | .lit c :: format, text, s =>
      if text.head? = some c then sscanf read format text.tail s else (0, s)
  | .uint width set :: format, text, s =>
      match scanUint width text with
      | none => (0, s)
      | some (n, rest) => (sscanf read format rest (set n s)).map (· + 1) id
  | .float set :: format, text, s =>
      match read (text.dropWhile isspace) with
      | none => (0, s)
      | some (x, rest) => (sscanf read format rest (set x s)).map (· + 1) id
  | .str width set :: format, text, s =>
      match scanWord width text with
      | none => (0, s)
      | some (word, rest) => (sscanf read format rest (set word s)).map (· + 1) id
  | .skipStr :: format, text, s =>
      match scanWord text.length text with
      | none => (0, s)
      | some (_, rest) => sscanf read format rest s

/-! ## What they read -/

variable {read : Str → Option (F × Str)} {format : List (Directive F σ)} {text : Str} {s : σ}
  {c : UInt8}

theorem dropWhile_of_head (h : ∀ c ∈ text.head?, isspace c = false) :
    text.dropWhile isspace = text := by
  cases text with
  | nil => rfl
  | cons c text => rw [List.dropWhile_cons_of_neg (by simp [h c rfl])]

theorem digit_spec : ∀ c : UInt8, 48 ≤ c ∧ c ≤ 57 →
    isspace c = false ∧ isdigit c = true ∧ c ≠ 45 ∧ c ≠ 43 :=
  Words.forall_uint8 (by decide +kernel)

theorem scanUint_zeroPadded (hpos : 0 < width) (h : n < 10 ^ width) (rest : Str) :
    scanUint width (zeroPadded width n ++ rest) = some (UInt32.ofNat n, rest) := by
  have hlength := length_zeroPadded hpos h
  have hvalue := digitsValue_zeroPadded width n
  have hdigits := digits_zeroPadded width n
  generalize zeroPadded width n = d at hlength hvalue hdigits
  obtain ⟨c, t, rfl⟩ := List.exists_cons_of_length_pos (hlength ▸ hpos)
  obtain ⟨hspace, -, hminus, hplus⟩ := digit_spec c (hdigits c List.mem_cons_self)
  have hdrop : (c :: t ++ rest).dropWhile isspace = c :: t ++ rest :=
    dropWhile_of_head fun d hd ↦ by
      obtain rfl : c = d := Option.some.inj hd
      exact hspace
  have hhead : (c :: t ++ rest).head? = some c := rfl
  have htake : (c :: t ++ rest).take width = c :: t := by rw [List.take_left' hlength]
  have hall : (c :: t).takeWhile isdigit = c :: t :=
    List.takeWhile_eq_self_iff.mpr fun d hd ↦ (digit_spec d (hdigits d hd)).2.1
  rw [scanUint, hdrop, hhead]
  simp only [Option.some.injEq, hminus, hplus, or_self, if_false, List.drop_zero, Nat.sub_zero,
    htake, hall, reduceCtorEq, hvalue, Nat.zero_add, List.drop_left]

theorem sscanf_uint {set : UInt32 → σ → σ} (hpos : 0 < width) (h : n < 10 ^ width) (rest : Str) :
    sscanf read (.uint width set :: format) (zeroPadded width n ++ rest) s =
      (sscanf read format rest (set (UInt32.ofNat n) s)).map (· + 1) id := by
  rw [sscanf, scanUint_zeroPadded hpos h]

@[simp] theorem sscanf_lit_cons :
    sscanf read (.lit c :: format) (c :: rest) s = sscanf read format rest s := if_pos rfl

theorem sscanf_lit_of_ne (h : ∀ d ∈ text.head?, d ≠ c) :
    sscanf read (.lit c :: format) text s = (0, s) :=
  if_neg fun hc ↦ h c hc rfl

theorem scanWord_self (hne : text ≠ []) (hword : ∀ c ∈ text, isspace c = false)
    (h : text.length ≤ width) : scanWord width text = some (text, []) := by
  have hdrop : text.dropWhile isspace = text :=
    dropWhile_of_head fun c hc ↦ hword c (List.mem_of_head? hc)
  have hall : text.takeWhile (fun c ↦ !isspace c) = text :=
    List.takeWhile_eq_self_iff.mpr fun c hc ↦ by simp [hword c hc]
  simp only [scanWord, hdrop, List.take_of_length_le h, hall, hne, if_false, List.drop_length]

end Synchronet.Xpdev
