import Mathlib.Data.List.Induction
import Synchronet.Lib.LockedUpdates
import Synchronet.Sbbs3.UserNumbers

/-!
# Single fields of a user record (userdat.c)

`getuserrec` and `putuserrec` read and write one column of user.dat, `adjustuserrec` adds to the
number in one while it has a lock on the column, and `subtract_cdt` takes credits from the two
columns that hold them.  The number passes through `ulong` in a column of ten digits and through
`ushort` in one of five.
-/

namespace Synchronet.Sbbs3

open RecordFile
open Smblib (cstr digitsValue)
open Xpdev (Str)

variable (L : Layout)

/-! ## Columns of user.dat -/

/-- `user_rec_len`: the length of the column at an offset, where there is one. -/
def userRecLen (offset : ℕ) : Option ℕ :=
  [(uAlias, lenAlias), (uName, lenName), (uHandle, lenHandle), (uNote, lenNote), (uComp, lenComp),
    (uComment, lenComment), (uNetmail, lenNetmail), (uAddress, lenAddress),
    (uLocation, lenLocation), (uZipcode, lenZipcode), (uPass, lenPass), (uPhone, lenPhone),
    (uBirth, lenBirth), (uModem, lenModem), (L.uIpaddr, L.lenIpaddr), (uCursub, 16),
    (uCurdir, 16), (uLaston, 8), (uFirston, 8), (uExpire, 8), (uPwmod, 8), (uNsTime, 8),
    (uLogontime, 8), (uFlags1, 8), (uFlags2, 8), (uFlags3, 8), (uFlags4, 8), (uExempt, 8),
    (uRest, 8), (uMisc, 8), (uQwk, 8), (uChat, 8), (uCurxtrn, 8), (uXedit, 8), (uShell, 8),
    (uLogons, 5), (uLtoday, 5), (uTimeon, 5), (uTextra, 5), (uTtoday, 5), (uTlast, 5),
    (uPosts, 5), (uEmails, 5), (uFbacks, 5), (uEtoday, 5), (uPtoday, 5), (uUls, 5), (uDls, 5),
    (uUlb, 10), (uDlb, 10), (uCdt, 10), (uMin, 10), (uFreecdt, 10), (uTmpext, 3), (uLevel, 2),
    (uTl, 2), (uRows, 2), (uLeech, 2), (uSex, 1), (uProt, 1)].lookup offset

/-- The length that a caller names, or that of the column for 0. -/
def fieldLen (start length : ℕ) : Option ℕ :=
  if length = 0 then userRecLen L start else some length

/-- Where a column of a user is in user.dat. -/
def fieldPos (usernumber start : ℕ) : ℕ := (usernumber - 1) * uLen + start

/-- What a column holds: up to the first ETX or CR. -/
def fieldChars (str : List UInt8) : List UInt8 := str.takeWhile fun c ↦ c ≠ etx && c ≠ 13

/-- The characters of a column, `none` where the file ends before it does. -/
def readField (file : List UInt8) (pos length : ℕ) : Option (List UInt8) :=
  if (readAt file pos length).length = length then some (fieldChars (readAt file pos length))
  else none

/-- `getuserrec`, `none` for its errors and for a column of which it has no length. -/
def getuserrec (file : List UInt8) (usernumber start length : ℕ) : Option Str :=
  if usernumber < 1 ∨ file.length < fieldPos usernumber start then none
  else do
    let length ← fieldLen L start length
    let str ← readField file (fieldPos usernumber start) length
    -- an empty password is in the column of an earlier version
    if str = [] ∧ start = lenPass then
      cstr <$> readField file (fieldPos usernumber L.uOldpass) L.lenOldpass
    else some (cstr str)

/-- `putuserrec` up to the nodes: user.dat and whether it was written. -/
def putuserrec (file : List UInt8) (usernumber start length : ℕ) (str : Str) : List UInt8 × Bool :=
  if usernumber < 1 ∨ file.length < (usernumber - 1) * uLen then (file, false)
  else
    match fieldLen L start length with
    | none => (file, false)
    | some length => (writeAt 0 file (fieldPos usernumber start) (column length str), true)

/-! ## Adding to a number -/

/-- `adjustuserrec` for more than five digits. -/
def adjustUlong (val : UInt64) (adj : Int64) : UInt64 :=
  if adj < 0 ∧ val < (-adj).toUInt64 then 0
  else if 0 < adj ∧ val + adj.toUInt64 < val then 0xffffffffffffffff
  else val + adj.toUInt64

/-- `adjustuserrec` for up to five digits: `sval + adj` is a `long`. -/
def adjustUshort (sval : UInt16) (adj : Int64) : UInt16 :=
  if adj < 0 ∧ sval < (-adj).toUInt64.toUInt16 then 0
  else if 0 < adj ∧ sval.toUInt64.toInt64 + adj < sval.toUInt64.toInt64 then 0xffff
  else sval + adj.toUInt64.toUInt16

/-- The number that `adjustuserrec` makes of the characters of a column. -/
def adjusted (length : ℕ) (adj : Int64) (str : List UInt8) : UInt64 :=
  let val := strtoul (cstr str)
  if 5 < length then adjustUlong (UInt64.ofNat val) adj
  else (adjustUshort (UInt16.ofNat val) adj).toUInt64

/-- What `adjustuserrec` writes for the characters it has read, `none` for a short read. -/
def storeAdjusted (pos length : ℕ) (adj : Int64) (str : Option (List UInt8)) (file : List UInt8) :
    List UInt8 × UInt64 :=
  match str with
  | none => (file, 0)
  | some str =>
      let val := adjusted length adj str
      (writeAt 0 file pos (column length (ultoa val.toNat 10)), val)

/-- `adjustuserrec` with the lock: user.dat and the result, `none` for a column of which it has
no length. -/
def adjustuserrec (file : List UInt8) (usernumber start length : ℕ) (adj : Int64) :
    Option (List UInt8 × UInt64) :=
  if usernumber < 1 ∨ file.length < (usernumber - 1) * uLen then some (file, 0)
  else do
    let length ← fieldLen L start length
    let pos := fieldPos usernumber start
    some (storeAdjusted pos length adj (readField file pos length) file)

/-- `subtract_cdt`: user.dat and the user. -/
def subtractCdt (file : List UInt8) (user : UserRecord) (amt : Int64) :
    Option (List UInt8 × UserRecord) :=
  let number := user.number.toNat
  if amt = 0 then some (file, user)
  else if user.freecdt ≠ 0 then
    if amt.toUInt64 > user.freecdt then do
      -- free credits and credits
      let mod := (amt.toUInt64 - user.freecdt).toInt64
      let file := (putuserrec L file number uFreecdt 10 (ultoa 0 10)).1
      let (file, cdt) ← adjustuserrec L file number uCdt 10 (-mod)
      some (file, { user with freecdt := 0, cdt := cdt })
    else
      let freecdt := user.freecdt - amt.toUInt64
      some ((putuserrec L file number uFreecdt 10 (ultoa freecdt.toNat 10)).1,
        { user with freecdt := freecdt })
  else do
    let (file, cdt) ← adjustuserrec L file number uCdt 10 (-amt)
    some (file, { user with cdt := cdt })

/-! ## Numbers in columns -/

theorem digitsValue_lt (s : List UInt8) : digitsValue s < 10 ^ s.length := by
  rw [digitsValue]
  refine lt_of_lt_of_le ?_ (Nat.pow_le_pow_right (by decide)
    (List.takeWhile_prefix (fun c : UInt8 ↦ decide (48 ≤ c ∧ c ≤ 57))).length_le)
  have hdigits : ∀ c ∈ s.takeWhile fun c ↦ decide (48 ≤ c ∧ c ≤ 57), 48 ≤ c ∧ c ≤ 57 :=
    fun c hc ↦ by simpa using List.mem_takeWhile_imp hc
  generalize (s.takeWhile fun c ↦ decide (48 ≤ c ∧ c ≤ 57)) = digits at hdigits ⊢
  induction digits using List.reverseRecOn with
  | nil => simp
  | append_singleton digits c ih =>
      have hc := (hdigits c (by simp)).2
      have hle : c.toNat ≤ 57 := UInt8.le_iff_toNat_le.mp hc
      have hlt := ih fun c' hc' ↦ hdigits c' (by simp [hc'])
      rw [List.foldl_append, List.foldl_cons, List.foldl_nil, List.length_append,
        List.length_singleton, pow_succ]
      omega

/-- What `strtoul` makes of digits. -/
theorem strtoul_of_digits {s : Str} (hs : ∀ c ∈ s, 48 ≤ c ∧ c ≤ 57) :
    strtoul s = min (digitsValue s) (2 ^ 64 - 1) := by
  cases s with
  | nil => rfl
  | cons c s =>
      have hdigit : ∀ c : UInt8, 48 ≤ c ∧ c ≤ 57 →
          Smblib.isspace c = false ∧ c ≠ 45 ∧ c ≠ 43 :=
        Words.forall_uint8 (p := fun c ↦ 48 ≤ c ∧ c ≤ 57 →
          Smblib.isspace c = false ∧ c ≠ 45 ∧ c ≠ 43) (by decide +kernel)
      obtain ⟨hspace, hminus, hplus⟩ := hdigit c (hs c (by simp))
      rw [strtoul, List.dropWhile_cons_of_neg (by simp [hspace])]
      split
      case h_1 heq => exact absurd (List.cons.inj heq).1 hminus
      case h_2 heq => exact absurd (List.cons.inj heq).1 hplus
      case h_3 => rfl

/-- The column of `length` characters at `pos` holds the number `v` in decimal. -/
structure StoresNumber (file : List UInt8) (pos length v : ℕ) : Prop where
  inside : pos + length ≤ file.length
  digits : ∀ c ∈ fieldChars (readAt file pos length), 48 ≤ c ∧ c ≤ 57
  value : digitsValue (fieldChars (readAt file pos length)) = v

section

variable {L} {file : List UInt8} {pos usernumber start len length v : ℕ}

theorem cstr_of_digits {s : List UInt8} (hs : ∀ c ∈ s, 48 ≤ c ∧ c ≤ 57) : cstr s = s :=
  List.takeWhile_eq_self_iff.mpr fun c hc ↦ by
    have hne : c ≠ 0 := by
      rintro rfl
      exact absurd (hs 0 hc).1 (by decide)
    simpa using hne

theorem readField_of_le (h : pos + length ≤ file.length) :
    readField file pos length = some (fieldChars (readAt file pos length)) := by
  rw [readField, if_pos]
  rw [length_readAt]
  exact min_eq_left (by omega)

theorem StoresNumber.lt (h : StoresNumber file pos length v) : v < 10 ^ length := by
  rw [← h.value]
  refine (digitsValue_lt _).trans_le (Nat.pow_le_pow_right (by decide) ?_)
  exact (List.takeWhile_prefix _).length_le.trans ((length_readAt _ _ _).trans_le (min_le_left _ _))

/-- A column reads what was put into it. -/
theorem fieldChars_column {s : List UInt8} (hs : Clean s) : fieldChars (column length s) =
    s.take length := by
  have hfill : (List.replicate (length - s.length) etx).takeWhile
      (fun c ↦ c ≠ etx && c ≠ 13) = [] := by
    cases length - s.length with
    | zero => rfl
    | succ n => rfl
  rw [fieldChars, column, List.takeWhile_append_of_pos, hfill, List.append_nil]
  intro c hc
  have hend := (hs c (List.mem_of_mem_take hc)).1
  simp only [endsField, Bool.or_eq_false_iff, decide_eq_false_iff_not] at hend
  simpa using hend.1

theorem readAt_column (file : List UInt8) (pos length : ℕ) (s : List UInt8) :
    readAt (writeAt 0 file pos (column length s)) pos length = column length s := by
  have h := readAt_writeAt_self 0 file pos (column length s)
  rwa [length_column] at h

/-- The number that is stored when the digits of `n` are put into a column. -/
def storedValue (length n : ℕ) : ℕ := digitsValue ((ultoa n 10).take length)

theorem take_ultoa {n : ℕ} (hlength : 0 < length) (h : n < 10 ^ length) :
    (ultoa n 10).take length = ultoa n 10 :=
  List.take_of_length_le (length_ultoa_le (by decide) hlength h)

theorem storedValue_of_lt {n : ℕ} (hlength : 0 < length) (h : n < 10 ^ length) :
    storedValue length n = n := by
  rw [storedValue, take_ultoa hlength h, digitsValue_ultoa]

theorem storesNumber_write (h : pos + length ≤ file.length) (n : ℕ) :
    StoresNumber (writeAt 0 file pos (column length (ultoa n 10))) pos length
      (storedValue length n) where
  inside := h.trans (length_le_writeAt _ _ _ _)
  digits c hc := by
    rw [readAt_column, fieldChars_column (clean_ultoa_ten n)] at hc
    exact digits_ultoa n c (List.mem_of_mem_take hc)
  value := by rw [readAt_column, fieldChars_column (clean_ultoa_ten n), storedValue]

theorem storesNumber_put (hlength : 0 < length) (h : pos + length ≤ file.length) {n : ℕ}
    (hn : n < 10 ^ length) :
    StoresNumber (writeAt 0 file pos (column length (ultoa n 10))) pos length n := by
  have hstores := storesNumber_write h n
  rwa [storedValue_of_lt hlength hn] at hstores

/-- The number that was put into a column is read as a string. -/
theorem getuserrec_write (hnumber : 1 ≤ usernumber) (hlen : fieldLen L start len = some length)
    (hlength : 0 < length) (h : fieldPos usernumber start + length ≤ file.length) (n : ℕ) :
    getuserrec L (writeAt 0 file (fieldPos usernumber start) (column length (ultoa n 10)))
      usernumber start len = some ((ultoa n 10).take length) := by
  have hstores := storesNumber_write h n
  have hchars := hstores.inside
  have hread : fieldChars (readAt (writeAt 0 file (fieldPos usernumber start)
      (column length (ultoa n 10))) (fieldPos usernumber start) length) =
      (ultoa n 10).take length := by
    rw [readAt_column, fieldChars_column (clean_ultoa_ten n)]
  have hne : (ultoa n 10).take length ≠ [] := by
    simp [ultoa_ne_nil, hlength.ne']
  rw [getuserrec, if_neg (by omega), hlen, Option.bind_eq_bind, Option.bind_some,
    readField_of_le hchars, hread, Option.bind_eq_bind, Option.bind_some, if_neg (by simp [hne]),
    cstr_of_digits fun c hc ↦ digits_ultoa n c (List.mem_of_mem_take hc)]

end

/-! ## The result of an adjustment -/

section

variable {adj : Int64}

theorem toNat_adjustUlong {val : UInt64} (hval : val.toNat < 2 ^ 63) (adj : Int64) :
    ((adjustUlong val adj).toNat : ℤ) = max 0 (val.toNat + adj.toInt) := by
  have hneg : adj < 0 ↔ adj.toInt < 0 := Int64.lt_iff_toInt_lt
  have hpos : 0 < adj ↔ 0 < adj.toInt := Int64.lt_iff_toInt_lt
  have hle := adj.le_toInt
  have hlt := adj.toInt_lt
  have hadj := Words.toNat_toUInt64 adj
  simp only [adjustUlong, hneg, hpos]
  rcases lt_or_ge adj.toInt 0 with h | h
  · have hminus := Words.toNat_toUInt64_neg h
    split
    case isTrue hc =>
      have hc := UInt64.lt_iff_toNat_lt.mp hc.2
      simp only [UInt64.toNat_zero, Nat.cast_zero]
      omega
    case isFalse hc =>
      have hc : ¬val.toNat < (-adj).toUInt64.toNat := fun hv ↦
        hc ⟨h, UInt64.lt_iff_toNat_lt.mpr hv⟩
      rw [if_neg (by omega), UInt64.toNat_add]
      omega
  · rw [if_neg (by omega), if_neg, UInt64.toNat_add]
    · omega
    · rw [UInt64.lt_iff_toNat_lt, UInt64.toNat_add]
      omega

/-- Only the low sixteen bits of what is to be taken are looked at. -/
theorem toNat_adjustUshort_of_neg (sval : UInt16) (h : adj.toInt < 0) :
    ((adjustUshort sval adj).toNat : ℤ) = max 0 (sval.toNat - -adj.toInt % 65536) := by
  have hneg : adj < 0 ↔ adj.toInt < 0 := Int64.lt_iff_toInt_lt
  have hpos : 0 < adj ↔ 0 < adj.toInt := Int64.lt_iff_toInt_lt
  have hadj := Words.toNat_toUInt64 adj
  have hminus := Words.toNat_toUInt64_neg h
  have hlt := sval.toNat_lt
  simp only [adjustUshort, hneg, hpos, UInt16.lt_iff_toNat_lt, UInt64.toNat_toUInt16]
  split
  · simp only [UInt16.toNat_zero, Nat.cast_zero]
    omega
  · rw [if_neg (by omega), UInt16.toNat_add, UInt64.toNat_toUInt16]
    omega

/-- The sum of the overflow test is less than the summand only where the `long` overflows. -/
theorem add_lt_self_iff (sval : UInt16) (h : 0 ≤ adj.toInt) :
    sval.toUInt64.toInt64 + adj < sval.toUInt64.toInt64 ↔ 2 ^ 63 ≤ sval.toNat + adj.toInt := by
  have hlt := sval.toNat_lt
  have hle := adj.toInt_lt
  have hs : sval.toUInt64.toInt64.toInt = sval.toNat := by
    rw [Words.toInt_toInt64, UInt16.toNat_toUInt64, Int.bmod_eq_of_le] <;> omega
  rw [Int64.lt_iff_toInt_lt, Int64.toInt_add, hs]
  rcases lt_or_ge (sval.toNat + adj.toInt) (2 ^ 63) with hsum | hsum
  · rw [Int.bmod_eq_of_le (by omega) (by omega)]
    omega
  · rw [Int.bmod_def, if_neg (by omega)]
    omega

theorem toNat_adjustUshort_of_nonneg (sval : UInt16) (h : 0 ≤ adj.toInt) :
    ((adjustUshort sval adj).toNat : ℤ) =
      if 2 ^ 63 ≤ sval.toNat + adj.toInt then 65535 else (sval.toNat + adj.toInt) % 65536 := by
  have hneg : adj < 0 ↔ adj.toInt < 0 := Int64.lt_iff_toInt_lt
  have hpos : 0 < adj ↔ 0 < adj.toInt := Int64.lt_iff_toInt_lt
  have hadj := Words.toNat_toUInt64 adj
  have hlt := sval.toNat_lt
  simp only [adjustUshort, hneg, hpos, add_lt_self_iff sval h]
  rw [if_neg (by omega)]
  split
  case isTrue hsum =>
    rw [if_pos hsum.2]
    rfl
  case isFalse hsum =>
    rw [if_neg (by omega), UInt16.toNat_add, UInt64.toNat_toUInt16]
    omega

/-- The largest `ulong`, or `ushort` for up to five digits, that a column holds. -/
def fieldMax (length : ℕ) : ℕ :=
  min (if 5 < length then 2 ^ 64 - 1 else 2 ^ 16 - 1) (10 ^ length - 1)

/-- An adjustment of `v`, kept between 0 and what the column holds. -/
def clamped (length v : ℕ) (adj : Int64) : ℤ := max 0 (min (fieldMax length) (v + adj.toInt))

/-- The adjustments of `v` that saturate.  With up to five digits what goes over is lost, but
for sums that happen to end in the largest value and for those that `long` cannot hold, and of
what is taken only the remainder counts. -/
def Adjusts (length v : ℕ) (adj : Int64) : Prop :=
  if 5 < length then v + adj.toInt ≤ fieldMax length
  else if 0 ≤ adj.toInt then
    v + adj.toInt ≤ 65535 ∨ (v + adj.toInt) % 65536 = 65535 ∨ 2 ^ 63 ≤ v % 65536 + adj.toInt
  else
    (v : ℤ) / 65536 = -adj.toInt / 65536 ∨
      v ≤ -adj.toInt ∧ (v : ℤ) % 65536 ≤ -adj.toInt % 65536

instance (length v : ℕ) (adj : Int64) : Decidable (Adjusts length v adj) := by
  unfold Adjusts
  infer_instance

variable {L} {file : List UInt8} {pos usernumber start len length v : ℕ}

theorem StoresNumber.toNat_adjusted_of_lt (h : StoresNumber file pos length v) (h5 : 5 < length)
    (hv : v < 2 ^ 63) (adj : Int64) :
    ((adjusted length adj (fieldChars (readAt file pos length))).toNat : ℤ) =
      max 0 (v + adj.toInt) := by
  have hval : (UInt64.ofNat v).toNat = v := Nat.mod_eq_of_lt (by omega)
  rw [adjusted, cstr_of_digits h.digits, strtoul_of_digits h.digits, h.value, if_pos h5,
    min_eq_left (by omega), toNat_adjustUlong (by omega), hval]

theorem StoresNumber.toNat_adjusted_of_le (h : StoresNumber file pos length v) (h5 : length ≤ 5) :
    (adjusted length adj (fieldChars (readAt file pos length))).toNat =
      (adjustUshort (UInt16.ofNat v) adj).toNat := by
  have hv : v < 10 ^ 5 := h.lt.trans_le (Nat.pow_le_pow_right (by decide) h5)
  rw [adjusted, cstr_of_digits h.digits, strtoul_of_digits h.digits, h.value, if_neg (by omega),
    min_eq_left (by omega), UInt16.toNat_toUInt64]

/-- The number that comes back is the saturated one for these adjustments. -/
theorem StoresNumber.adjusted_eq_clamped_iff (h : StoresNumber file pos length v)
    (hlength : length = 5 ∨ length = 10) :
    ((adjusted length adj (fieldChars (readAt file pos length))).toNat : ℤ) =
      clamped length v adj ↔ Adjusts length v adj := by
  have hlt := h.lt
  rcases hlength with rfl | rfl
  · have hmax : (fieldMax 5 : ℤ) = 65535 := by decide
    have hs : (UInt16.ofNat v).toNat = v % 65536 := UInt16.toNat_ofNat'
    rw [h.toNat_adjusted_of_le le_rfl, clamped, hmax, Adjusts, if_neg (by decide)]
    rcases lt_or_ge adj.toInt 0 with hadj | hadj
    · rw [if_neg (by omega), toNat_adjustUshort_of_neg _ hadj, hs]
      omega
    · rw [if_pos hadj, toNat_adjustUshort_of_nonneg _ hadj, hs]
      split
      · omega
      · omega
  · have hmax : (fieldMax 10 : ℤ) = 9999999999 := by decide
    rw [h.toNat_adjusted_of_lt (by decide) (by omega) adj, clamped, Adjusts, if_pos (by decide), hmax]
    omega

end

/-! ## Adjusting a field -/

section

variable {L} {file : List UInt8} {pos usernumber start len length v : ℕ} {adj : Int64}

theorem StoresNumber.storeAdjusted_eq (h : StoresNumber file pos length v) (adj : Int64) :
    storeAdjusted pos length adj (readField file pos length) file =
      (writeAt 0 file pos (column length
        (ultoa (adjusted length adj (fieldChars (readAt file pos length))).toNat 10)),
        adjusted length adj (fieldChars (readAt file pos length))) := by
  rw [readField_of_le h.inside, storeAdjusted]

theorem StoresNumber.adjustuserrec_eq
    (h : StoresNumber file (fieldPos usernumber start) length v) (hnumber : 1 ≤ usernumber)
    (hlen : fieldLen L start len = some length) (adj : Int64) :
    adjustuserrec L file usernumber start len adj =
      some (storeAdjusted (fieldPos usernumber start) length adj
        (readField file (fieldPos usernumber start) length) file) := by
  have hinside := h.inside
  rw [fieldPos] at hinside
  rw [adjustuserrec, if_neg (by omega), hlen]
  rfl

variable (L) in
/-- The field reads as the number that comes back, which is the saturated one. -/
def Saturates (file : List UInt8) (usernumber start len length v : ℕ) (adj : Int64) : Prop :=
  ∃ file' val, adjustuserrec L file usernumber start len adj = some (file', val) ∧
    getuserrec L file' usernumber start len = some (ultoa val.toNat 10) ∧
    (val.toNat : ℤ) = clamped length v adj

theorem clamped_lt (hlength : 0 < length) (v : ℕ) (adj : Int64) :
    clamped length v adj < 10 ^ length := by
  have hpos : 0 < 10 ^ length := Nat.pos_of_ne_zero (by simp)
  have hmax : fieldMax length ≤ 10 ^ length - 1 := min_le_right _ _
  have hlt : (fieldMax length : ℤ) < 10 ^ length := by
    have hlt : fieldMax length < 10 ^ length := by omega
    exact_mod_cast hlt
  rw [clamped]
  exact max_lt (by exact_mod_cast hpos) (min_lt_of_left_lt hlt)

theorem StoresNumber.saturates_iff
    (h : StoresNumber file (fieldPos usernumber start) length v) (hnumber : 1 ≤ usernumber)
    (hlen : fieldLen L start len = some length) (hlength : length = 5 ∨ length = 10) :
    Saturates L file usernumber start len length v adj ↔ Adjusts length v adj := by
  have hpos : 0 < length := by omega
  rw [← h.adjusted_eq_clamped_iff hlength, Saturates, h.adjustuserrec_eq hnumber hlen,
    h.storeAdjusted_eq]
  constructor
  · rintro ⟨file', val, heq, -, hval⟩
    obtain ⟨-, rfl⟩ := Prod.mk.inj (Option.some.inj heq)
    exact hval
  · intro hval
    refine ⟨_, _, rfl, ?_, hval⟩
    have hlt : (adjusted length adj
        (fieldChars (readAt file (fieldPos usernumber start) length))).toNat < 10 ^ length := by
      have hclamped := clamped_lt hpos v adj
      rw [← hval] at hclamped
      exact_mod_cast hclamped
    rw [getuserrec_write hnumber hlen hpos h.inside, take_ultoa hpos hlt]

/-! ## Adjusting a field from several processes -/

/-- The calls of `adjustuserrec` for one field: what each does while it has the lock. -/
def adjustments {ι : Type*} (pos length : ℕ) (adj : ι → Int64) :
    LockedUpdates.Update ι (List UInt8) (Option (List UInt8)) UInt64 where
  read _ file := readField file pos length
  write i str file := storeAdjusted pos length (adj i) str file

/-- An adjustment that stays in the column takes effect; another leaves some number in it. -/
theorem StoresNumber.step (h : StoresNumber file pos length v)
    (hlength : length = 5 ∨ length = 10) (hv : v ≤ fieldMax length) (adj : Int64) :
    ∃ v', StoresNumber (storeAdjusted pos length adj (readField file pos length) file).1
        pos length v' ∧ v' ≤ fieldMax length ∧
      (0 ≤ v + adj.toInt → v + adj.toInt ≤ fieldMax length →
        (v' : ℤ) = v + adj.toInt ∧
          ((storeAdjusted pos length adj (readField file pos length) file).2.toNat : ℤ) =
            v + adj.toInt) := by
  have hpos : 0 < length := by omega
  set val := adjusted length adj (fieldChars (readAt file pos length)) with hval
  have hstores := storesNumber_write h.inside val.toNat
  rw [h.storeAdjusted_eq]
  refine ⟨storedValue length val.toNat, hstores, ?_, fun hlow hhigh ↦ ?_⟩
  · rcases hlength with rfl | rfl
    · have hlt : val.toNat < 2 ^ 16 := by
        rw [hval, h.toNat_adjusted_of_le le_rfl]
        exact UInt16.toNat_lt _
      rw [storedValue_of_lt hpos (by omega)]
      exact Nat.le_of_lt_succ hlt
    · have hlt := hstores.lt
      have hmax : fieldMax 10 = 10 ^ 10 - 1 := by decide
      omega
  · have hadj : Adjusts length v adj := by
      rcases hlength with rfl | rfl
      · have hmax : fieldMax 5 = 65535 := by decide
        rw [Adjusts, if_neg (by decide)]
        rw [hmax] at hv hhigh
        split
        · exact Or.inl hhigh
        · exact Or.inl (by omega)
      · rwa [Adjusts, if_pos (by decide)]
    have heq := (h.adjusted_eq_clamped_iff hlength).mpr hadj
    have hlt : val.toNat < 10 ^ length := by
      have hclamped := clamped_lt hpos v adj
      rw [← heq] at hclamped
      exact_mod_cast hclamped
    rw [← hval, clamped] at heq
    have hsum : (val.toNat : ℤ) = v + adj.toInt := by omega
    rw [storedValue_of_lt hpos hlt]
    exact ⟨hsum, hsum⟩

/-- The number that the column holds is the same in whatever way it is read. -/
theorem StoresNumber.unique {v' : ℕ} (h : StoresNumber file pos length v)
    (h' : StoresNumber file pos length v') : v = v' := h.value.symm.trans h'.value

theorem StoresNumber.callAll {ι : Type*} (h : StoresNumber file pos length v)
    (hlength : length = 5 ∨ length = 10) (hv : v ≤ fieldMax length) (adj : ι → Int64)
    (order : List ι) :
    ∃ v', StoresNumber ((adjustments pos length adj).callAll file order) pos length v' ∧
      v' ≤ fieldMax length :=
  (adjustments pos length adj).callAll_induction
    (I := fun file ↦ ∃ v', StoresNumber file pos length v' ∧ v' ≤ fieldMax length)
    (fun i _ ⟨_, hs, hle⟩ ↦
      have ⟨v', hs', hle', _⟩ := hs.step hlength hle (adj i)
      ⟨v', hs', hle'⟩)
    ⟨v, h, hv⟩ order

end

/-- A record whose column of the posts holds a number. -/
def postsRecord (n : ℕ) : List UInt8 :=
  writeAt 0 (List.replicate uLen etx) (fieldPos 1 uPosts) (column 5 (ultoa n 10))

theorem storesNumber_postsRecord {n : ℕ} (h : n < 10 ^ 5) :
    StoresNumber (postsRecord n) (fieldPos 1 uPosts) 5 n := by
  exact storesNumber_put (by decide) (by rw [List.length_replicate]; decide) h

section

variable {file : List UInt8} {pos length usernumber v : ℕ} {user : UserRecord} {amt : Int64}

theorem StoresNumber.write_of_disjoint (h : StoresNumber file pos length v) {p : ℕ}
    {xs : List UInt8} (hclear : pos + length ≤ p ∨ p + xs.length ≤ pos) :
    StoresNumber (writeAt 0 file p xs) pos length v := by
  have hread := readAt_writeAt_of_disjoint 0 file p xs hclear h.inside
  exact ⟨h.inside.trans (length_le_writeAt _ _ _ _), hread ▸ h.digits, hread ▸ h.value⟩

/-- The columns of the credits of a user have nothing in common. -/
theorem apart_cdt (usernumber : ℕ) :
    fieldPos usernumber uCdt + 10 ≤ fieldPos usernumber uFreecdt := by
  have hle : uCdt + 10 ≤ uFreecdt := by decide
  rw [fieldPos, fieldPos]
  omega

/-- A number in a column is replaced. -/
theorem StoresNumber.putuserrec (h : StoresNumber file (fieldPos usernumber uFreecdt) 10 v)
    (hnumber : 1 ≤ usernumber) (n : ℕ) (hn : n < 10 ^ 10) {w : ℕ}
    (hcdt : StoresNumber file (fieldPos usernumber uCdt) 10 w) :
    StoresNumber (putuserrec L file usernumber uFreecdt 10 (ultoa n 10)).1
        (fieldPos usernumber uFreecdt) 10 n ∧
      StoresNumber (putuserrec L file usernumber uFreecdt 10 (ultoa n 10)).1
        (fieldPos usernumber uCdt) 10 w := by
  have hinside := h.inside
  rw [fieldPos] at hinside
  rw [Sbbs3.putuserrec, if_neg (by omega)]
  exact ⟨storesNumber_put (by decide) h.inside hn,
    hcdt.write_of_disjoint (Or.inl (apart_cdt usernumber))⟩

/-- Credits are taken down to none. -/
theorem StoresNumber.adjustuserrec_cdt (h : StoresNumber file (fieldPos usernumber uCdt) 10 v)
    (hnumber : 1 ≤ usernumber) (adj : Int64) (hadj : adj.toInt ≤ 0) {w : ℕ}
    (hfree : StoresNumber file (fieldPos usernumber uFreecdt) 10 w) :
    ∃ file' cdt, adjustuserrec L file usernumber uCdt 10 adj = some (file', cdt) ∧
      StoresNumber file' (fieldPos usernumber uCdt) 10 cdt.toNat ∧
      StoresNumber file' (fieldPos usernumber uFreecdt) 10 w ∧
      (cdt.toNat : ℤ) = max 0 (v + adj.toInt) := by
  have hlt := h.lt
  have hval := h.toNat_adjusted_of_lt (by decide) (by omega) adj
  refine ⟨_, _, (h.adjustuserrec_eq hnumber rfl adj).trans
    (congrArg some (h.storeAdjusted_eq adj)),
    storesNumber_put (by decide) h.inside (by omega), hfree.write_of_disjoint (Or.inr ?_), hval⟩
  rw [length_column]
  exact apart_cdt usernumber

end

/-- Free credits are taken first, in memory and in the record, and no difference on the way
wraps around. -/
theorem subtractCdt_stored {file : List UInt8} {user : UserRecord} {amt : Int64}
    (hamt : 0 < amt) (hnumber : 1 ≤ user.number)
    (hcdt : StoresNumber file (fieldPos user.number.toNat uCdt) 10 user.cdt.toNat)
    (hfree : StoresNumber file (fieldPos user.number.toNat uFreecdt) 10 user.freecdt.toNat) :
    ∃ file' user', subtractCdt L file user amt = some (file', user') ∧
      StoresNumber file' (fieldPos user.number.toNat uCdt) 10 user'.cdt.toNat ∧
      StoresNumber file' (fieldPos user.number.toNat uFreecdt) 10 user'.freecdt.toNat ∧
      (user'.freecdt.toNat : ℤ) = max 0 (user.freecdt.toNat - amt.toInt) ∧
      (user'.freecdt.toNat + user'.cdt.toNat : ℤ) =
        max 0 (user.freecdt.toNat + user.cdt.toNat - amt.toInt) ∧
      (-amt).toInt = -amt.toInt ∧
      (user.freecdt.toNat < amt.toInt →
        (amt.toUInt64 - user.freecdt).toInt64.toInt = amt.toInt - user.freecdt.toNat ∧
          (-(amt.toUInt64 - user.freecdt).toInt64).toInt = -(amt.toInt - user.freecdt.toNat)) ∧
      (amt.toInt ≤ user.freecdt.toNat →
        ((user.freecdt - amt.toUInt64).toNat : ℤ) = user.freecdt.toNat - amt.toInt) := by
  have hpos : 0 < amt.toInt := Int64.lt_iff_toInt_lt.mp hamt
  have hlt := amt.toInt_lt
  have hulong : (amt.toUInt64.toNat : ℤ) = amt.toInt := by
    rw [Words.toNat_toUInt64]
    omega
  have hnum : 1 ≤ user.number.toNat := UInt16.le_iff_toNat_le.mp hnumber
  have hneg : (-amt).toInt = -amt.toInt := by
    rw [Int64.toInt_neg, Int.bmod_eq_of_le] <;> omega
  have hmod : user.freecdt.toNat < amt.toInt →
      (amt.toUInt64 - user.freecdt).toInt64.toInt = amt.toInt - user.freecdt.toNat := by
    intro hmore
    rw [Words.toInt_toInt64, UInt64.toNat_sub_of_le _ _ (UInt64.le_iff_toNat_le.mpr (by omega)),
      Int.bmod_eq_of_le] <;> omega
  have hminus : user.freecdt.toNat < amt.toInt →
      (-(amt.toUInt64 - user.freecdt).toInt64).toInt = -(amt.toInt - user.freecdt.toNat) := by
    intro hmore
    rw [Int64.toInt_neg, hmod hmore, Int.bmod_eq_of_le] <;> omega
  have hless : amt.toInt ≤ user.freecdt.toNat →
      ((user.freecdt - amt.toUInt64).toNat : ℤ) = user.freecdt.toNat - amt.toInt := by
    intro hle
    rw [UInt64.toNat_sub_of_le _ _ (UInt64.le_iff_toNat_le.mpr (by omega))]
    omega
  have hrest := And.intro hneg (And.intro (fun h ↦ And.intro (hmod h) (hminus h)) hless)
  have hne : amt ≠ 0 := by
    rintro rfl
    exact absurd hpos (by decide)
  have hfreelt := hfree.lt
  rw [subtractCdt, if_neg hne]
  by_cases hzero : user.freecdt = 0
  · have hzero' : user.freecdt.toNat = 0 := by rw [hzero]; rfl
    obtain ⟨file', cdt, hadj, hcdt', hfree', hval⟩ :=
      hcdt.adjustuserrec_cdt L hnum (-amt) (by omega) hfree
    refine ⟨file', { user with cdt := cdt }, ?_, hcdt', hfree', ?_, ?_, hrest⟩
    · rw [if_neg (by simpa using hzero), hadj]
      rfl
    · change (user.freecdt.toNat : ℤ) = _
      omega
    · change (user.freecdt.toNat + cdt.toNat : ℤ) = _
      omega
  · rw [if_pos hzero]
    by_cases hmore : user.freecdt.toNat < amt.toInt
    · obtain ⟨hfree0, hcdt0⟩ := hfree.putuserrec L hnum 0 (by decide) hcdt
      obtain ⟨file', cdt, hadj, hcdt', hfree', hval⟩ :=
        hcdt0.adjustuserrec_cdt L hnum (-(amt.toUInt64 - user.freecdt).toInt64)
          (by rw [hminus hmore]; omega) hfree0
      rw [hminus hmore] at hval
      refine ⟨file', { user with freecdt := 0, cdt := cdt }, ?_, hcdt', hfree', ?_, ?_, hrest⟩
      · rw [if_pos (UInt64.lt_iff_toNat_lt.mpr (by omega))]
        dsimp only
        rw [hadj]
        rfl
      · change (0 : ℤ) = _
        omega
      · change ((0 : ℕ) + cdt.toNat : ℤ) = _
        omega
    · have hval := hless (by omega)
      obtain ⟨hfree', hcdt'⟩ := hfree.putuserrec L hnum
        (user.freecdt - amt.toUInt64).toNat (by omega) hcdt
      refine ⟨_, { user with freecdt := user.freecdt - amt.toUInt64 }, ?_, hcdt', hfree', ?_, ?_,
        hrest⟩
      · rw [if_neg fun h ↦ hmore (by have := UInt64.lt_iff_toNat_lt.mp h; omega)]
      · rw [hval]
        omega
      · change ((user.freecdt - amt.toUInt64).toNat + user.cdt.toNat : ℤ) = _
        omega

/-- Fifty credits of a user who has thirty free ones. -/
theorem subtractCdt_fifty :
    ∃ file user, subtractCdt ⟨uMainCmd, 8, uMailCmd, 38⟩
        (writeAt 0 (writeAt 0 (List.replicate uLen etx) (fieldPos 1 uFreecdt)
          (column 10 (ultoa 30 10))) (fieldPos 1 uCdt) (column 10 (ultoa 100 10)))
        { number := 1, cdt := 100, freecdt := 30 } 50 = some (file, user) ∧
      StoresNumber file (fieldPos 1 uCdt) 10 user.cdt.toNat ∧
      StoresNumber file (fieldPos 1 uFreecdt) 10 user.freecdt.toNat ∧
      user.freecdt.toNat = 0 ∧ user.cdt.toNat = 80 := by
  have hblank : (List.replicate uLen etx).length = uLen := List.length_replicate
  have hfree := storesNumber_put (by decide) (by rw [hblank]; decide : fieldPos 1 uFreecdt + 10 ≤
    (List.replicate uLen etx).length) (by decide : 30 < 10 ^ 10)
  have hcdt := storesNumber_put (by decide)
    ((apart_cdt 1).trans ((Nat.le_add_right _ 10).trans hfree.inside)) (by decide : 100 < 10 ^ 10)
  have hfree' := hfree.write_of_disjoint
    (Or.inr (by rw [length_column]; exact apart_cdt 1) : _ ∨ fieldPos 1 uCdt +
      (column 10 (ultoa 100 10)).length ≤ _)
  obtain ⟨file, user, hsub, hc, hf, hfreecdt, hsum, -⟩ := @subtractCdt_stored
    ⟨uMainCmd, 8, uMailCmd, 38⟩ _ { number := 1, cdt := 100, freecdt := 30 } 50
    (by decide) (by decide) hcdt hfree'
  have hamt : (50 : Int64).toInt = 50 := by decide
  rw [hamt] at hfreecdt hsum
  have hf0 : (user.freecdt.toNat : ℤ) = 0 := hfreecdt
  have hs0 : (user.freecdt.toNat + user.cdt.toNat : ℤ) = 80 := hsum
  exact ⟨file, user, hsub, hc, hf, by omega, by omega⟩

end Synchronet.Sbbs3
