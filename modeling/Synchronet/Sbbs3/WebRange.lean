import Synchronet.Lib.Words
import Synchronet.Sbbs3.UserNumbers

/-!
# Byte ranges of a static file (websrvr.c)

`parse_headers` keeps a range as its first and last byte, with a last byte of -1 for a range
without an end and a negative first byte for one that counts from the end of the file; both are
zero where there is no range.  `check_request` makes positions of these, `send_headers` and
`sock_sendfile` describe and send what is between them.  The request is a `GET` without a
condition.
-/

namespace Synchronet.Sbbs3.WebSrvr

open Smblib (digitsValue)
open Xpdev

/-! ## The request -/

/-- `range_start` and `range_end`. -/
structure ByteRange where
  start : Int64
  stop : Int64
  deriving DecidableEq

/-- What becomes of the header. -/
inductive RangeHeader
  | range (r : ByteRange)
  | notSatisfiable
  /-- The value is shorter than its unit, and what is behind it is read. -/
  | fault
  deriving DecidableEq

/-- `strtol` for numbers in decimal. -/
def strtol (s : Str) : Int64 :=
  match skipWhitespace s with
  | 45 :: rest => Int64.ofInt (-(min (digitsValue rest) (2 ^ 63) : ℕ))
  | 43 :: rest => Int64.ofInt (min (digitsValue rest) (2 ^ 63 - 1) : ℕ)
  | rest => Int64.ofInt (min (digitsValue rest) (2 ^ 63 - 1) : ℕ)

/-- `strtok_r` with the delimiter "-": the token, and what is behind its delimiter. -/
def strtokDash (s : Str) : Option (Str × Str) :=
  match s.dropWhile (· = 45) with
  | [] => none
  | c :: rest => some ((c :: rest).takeWhile (· ≠ 45), ((c :: rest).dropWhile (· ≠ 45)).tail)

/-- The case `HEAD_RANGE` of `parse_headers`. -/
def parseRange (value : Str) : RangeHeader :=
  if stricmp value [98, 121, 116, 101, 115, 61] then .notSatisfiable
  else if value.length < 6 then .fault
  else
    let value := value.drop 6
    if strchr value 44 ≠ none then .notSatisfiable
    else if value.head? = some 45 then .range ⟨strtol value, -1⟩
    else
      match strtokDash value with
      | none => .notSatisfiable
      | some (p, last) =>
          .range ⟨strtol p, ((strtokDash last).map fun q ↦ strtol q.1).getD (-1)⟩

/-- The ranges of `check_request`: what is to be sent and whether the status is 206, `none` for
a range that cannot be had. -/
def checkRange (size : Int64) (dynamic : Bool) (r : ByteRange) : Option (ByteRange × Bool) :=
  if r.start ≠ 0 ∨ r.stop ≠ 0 then
    let start := if r.start < 0 then size - r.start else r.start
    let stop := if r.stop < 0 then size - r.stop else r.stop
    let stop := if size ≤ stop then size - 1 else stop
    if stop < start ∨ dynamic then none
    else if start < 0 ∨ stop < 0 then none
    else if size ≤ start then none
    else some (⟨start, stop⟩, true)
  else some (r, false)

/-! ## The response -/

/-- `Content-Range`: the first and the last byte and the size, or `*`. -/
inductive ContentRange
  | bytes (first last size : Int64)
  | star
  deriving DecidableEq

/-- The headers that are about the range: `%ld` and `%d` print what they get as a number. -/
structure Headers where
  status : ℕ
  contentLength : ℤ
  contentRange : Option ContentRange
  deriving DecidableEq

/-- `send_headers` for a file of `size` bytes. -/
def sendHeaders (size : Int64) (r : ByteRange) (isPartial : Bool) : Headers where
  status := if isPartial then 206 else 200
  contentLength :=
    if (r.start ≠ 0 ∨ r.stop ≠ 0) ∧ isPartial then (r.stop - r.start + 1).toInt
    else size.toInt32.toInt
  contentRange :=
    if r.start ≠ 0 ∨ r.stop ≠ 0 then
      some (if isPartial then .bytes r.start r.stop size else .star)
    else none

/-- The loop of `sock_sendfile`: what it sends of the file from its position on. -/
def sendLoop (rest : List UInt8) (remain : UInt64) : List UInt8 :=
  let buf := rest.take (if 2048 < remain then 2048 else remain.toNat)
  if buf = [] then [] else buf ++ sendLoop (rest.drop buf.length) (remain - UInt64.ofNat buf.length)
termination_by rest.length
decreasing_by
  rename_i hne
  have hpos : 0 < buf.length := List.length_pos_iff.mpr hne
  have hle : buf.length ≤ rest.length := List.length_take_le' _ _
  rw [List.length_drop]
  exact Nat.sub_lt (hpos.trans_le hle) hpos

/-- `sock_sendfile`. -/
def sockSendfile (file : List UInt8) (start stop : UInt64) : List UInt8 :=
  if start ≠ 0 ∨ stop ≠ 0 then
    -- a position is a signed number
    if start.toInt64 < 0 then [] else sendLoop (file.drop start.toNat) (stop - start + 1)
  else sendLoop file (-1)

inductive Response
  | ok (headers : Headers) (body : List UInt8)
  | notSatisfiable
  | fault
  deriving DecidableEq

/-- The response to a request for a range of a static file. -/
def respondRange (file : List UInt8) (value : Str) : Response :=
  match parseRange value with
  | .notSatisfiable => .notSatisfiable
  | .fault => .fault
  | .range r =>
      let size := Int64.ofNat file.length
      match checkRange size false r with
      | none => .notSatisfiable
      | some (r, isPartial) =>
          .ok (sendHeaders size r isPartial) (sockSendfile file r.start.toUInt64 r.stop.toUInt64)

/-! ## What was asked for -/

/-- A range as it is written. -/
inductive RangeSpec
  | closed (a b : Str)
  | openEnd (a : Str)
  | suffix (n : Str)

/-- "bytes=" -/
def bytesUnit : Str := [98, 121, 116, 101, 115, 61]

def RangeSpec.text : RangeSpec → Str
  | .closed a b => bytesUnit ++ (a ++ 45 :: b)
  | .openEnd a => bytesUnit ++ (a ++ [45])
  | .suffix n => bytesUnit ++ 45 :: n

/-- A decimal number. -/
structure IsDecimal (s : Str) : Prop where
  ne_nil : s ≠ []
  digits : ∀ c ∈ s, 48 ≤ c ∧ c ≤ 57

def RangeSpec.Decimal : RangeSpec → Prop
  | .closed a b => IsDecimal a ∧ IsDecimal b
  | .openEnd a => IsDecimal a
  | .suffix n => IsDecimal n

/-- The first and the last byte of a range in a file, `none` where there is none. -/
def RangeSpec.wanted (size : ℕ) : RangeSpec → Option (ℕ × ℕ)
  | .closed a b =>
      if digitsValue a < size ∧ digitsValue a ≤ digitsValue b then
        some (digitsValue a, min (digitsValue b) (size - 1))
      else none
  | .openEnd a => if digitsValue a < size then some (digitsValue a, size - 1) else none
  | .suffix n =>
      if digitsValue n = 0 then none else some (size - min (digitsValue n) size, size - 1)

/-- The response is the range, described as what it is, or the whole file where that is the
same. -/
def Correct (file : List UInt8) (r : RangeSpec) (response : Response) : Prop :=
  match r.wanted file.length with
  | none => response = .notSatisfiable
  | some (first, last) =>
      response = .ok
          ⟨206, (last - first + 1 : ℕ), some (.bytes (Int64.ofNat first) (Int64.ofNat last)
            (Int64.ofNat file.length))⟩
          ((file.drop first).take (last - first + 1)) ∨
        first = 0 ∧ last + 1 = file.length ∧ response = .ok ⟨200, file.length, none⟩ file

/-- The ranges that are served: none that counts from the end, "0-0" only in a file of one byte,
and that byte in no other way.  The last bytes of the largest file that there can be are out of
reach, for one more than its size is negative. -/
def RangeServed (size : ℕ) : RangeSpec → Prop
  | .closed a b =>
      digitsValue b < digitsValue a ∨ size ≤ digitsValue a ∨ (size = 1 ↔ digitsValue b = 0)
  | .openEnd a => size ≤ digitsValue a ∨ 1 < size ∧ size + 1 < 2 ^ 63
  | .suffix n => digitsValue n = 0 ∧ size + 1 = 2 ^ 63

/-! ## Parsing -/

theorem toInt_ofInt {n : ℤ} (hlow : -2 ^ 63 ≤ n) (hhigh : n < 2 ^ 63) :
    (Int64.ofInt n).toInt = n := Int64.toInt_ofInt_of_le hlow hhigh

theorem toInt_ofNat {n : ℕ} (h : n < 2 ^ 63) : (Int64.ofNat n).toInt = n := by
  rw [← Int64.ofInt_eq_ofNat]
  exact toInt_ofInt (by omega) (by omega)

theorem eq_ofNat_of_toInt {x : Int64} {n : ℕ} (h : x.toInt = n) : x = Int64.ofNat n := by
  have hlt := x.toInt_lt
  apply Int64.toInt_inj.mp
  rw [h, toInt_ofNat (by omega)]

theorem IsDecimal.toInt_strtol {s : Str} (h : IsDecimal s) :
    (strtol s).toInt = min (digitsValue s) (2 ^ 63 - 1) := by
  obtain ⟨c, s, rfl⟩ := List.exists_cons_of_ne_nil h.ne_nil
  have hdigit : ∀ c : UInt8, 48 ≤ c ∧ c ≤ 57 → Smblib.isspace c = false ∧ c ≠ 45 ∧ c ≠ 43 :=
    Words.forall_uint8
      (p := fun c ↦ 48 ≤ c ∧ c ≤ 57 → Smblib.isspace c = false ∧ c ≠ 45 ∧ c ≠ 43)
      (by decide +kernel)
  obtain ⟨hspace, hminus, hplus⟩ := hdigit c (h.digits c (by simp))
  rw [strtol, skipWhitespace, List.dropWhile_cons_of_neg (by simp [hspace])]
  split
  case h_1 heq => exact absurd (List.cons.inj heq).1 hminus
  case h_2 heq => exact absurd (List.cons.inj heq).1 hplus
  case h_3 =>
    rw [toInt_ofInt (by omega) (by omega)]

theorem toInt_strtol_neg (s : Str) :
    (strtol (45 :: s)).toInt = -(min (digitsValue s) (2 ^ 63) : ℕ) := by
  have hspace : Smblib.isspace 45 = false := by decide
  rw [strtol, skipWhitespace, List.dropWhile_cons_of_neg (by simp [hspace])]
  exact toInt_ofInt (by omega) (by omega)

/-- A value behind its unit. -/
theorem parseRange_unit {value : Str} (hne : value ≠ []) (hcomma : 44 ∉ value) :
    parseRange (bytesUnit ++ value) =
      if value.head? = some 45 then .range ⟨strtol value, -1⟩
      else
        match strtokDash value with
        | none => .notSatisfiable
        | some (p, last) =>
            .range ⟨strtol p, ((strtokDash last).map fun q ↦ strtol q.1).getD (-1)⟩ := by
  have hunit : stricmp (bytesUnit ++ value) [98, 121, 116, 101, 115, 61] = false := by
    have hlen : (bytesUnit ++ value).length ≠ 6 := by
      simpa [bytesUnit] using hne
    simp only [stricmp, beq_eq_false_iff_ne]
    intro heq
    have h := congrArg List.length heq
    simp only [Smblib.strlwr, List.length_map] at h
    exact hlen h
  have hcomma' : strchr value 44 = none := by simpa [strchr, List.idxOf?_eq_none_iff] using hcomma
  have hdrop : (bytesUnit ++ value).drop 6 = value := rfl
  rw [parseRange, hunit, if_neg (by simp), if_neg (by simp [bytesUnit]), hdrop,
    if_neg (by simp [hcomma'])]

theorem IsDecimal.notMem {s : Str} (h : IsDecimal s) {c : UInt8} (hc : ¬(48 ≤ c ∧ c ≤ 57)) :
    c ∉ s := fun hmem ↦ hc (h.digits c hmem)

/-- A number is a token, up to a dash or to the end. -/
theorem strtokDash_decimal {s : Str} (h : IsDecimal s) (rest : Str) :
    strtokDash (s ++ 45 :: rest) = some (s, rest) ∧ strtokDash s = some (s, []) := by
  have hne : ∀ c ∈ s, c ≠ 45 := fun c hc ↦ ne_of_mem_of_not_mem hc (h.notMem (by decide))
  obtain ⟨c, s, rfl⟩ := List.exists_cons_of_ne_nil h.ne_nil
  have hhead : c ≠ 45 := hne c (by simp)
  have htake : ∀ t : Str, (c :: s ++ 45 :: t).takeWhile (· ≠ 45) = c :: s ∧
      (c :: s ++ 45 :: t).dropWhile (· ≠ 45) = 45 :: t := by
    intro t
    rw [List.takeWhile_append_of_pos (by simpa using hne),
      List.dropWhile_append_of_pos (by simpa using hne)]
    simp
  have hall : (c :: s).takeWhile (· ≠ 45) = c :: s ∧ (c :: s).dropWhile (· ≠ 45) = [] :=
    ⟨List.takeWhile_eq_self_iff.mpr (by simpa using hne),
      List.dropWhile_eq_nil_iff.mpr (by simpa using hne)⟩
  constructor
  · rw [strtokDash, List.cons_append, List.dropWhile_cons_of_neg (by simpa using hhead)]
    simp only [← List.cons_append, htake rest, List.tail_cons]
  · rw [strtokDash, List.dropWhile_cons_of_neg (by simpa using hhead)]
    simp only [hall, List.tail_nil]

theorem IsDecimal.head?_ne {s : Str} (h : IsDecimal s) (rest : Str) :
    (s ++ rest).head? ≠ some 45 := by
  obtain ⟨c, s, rfl⟩ := List.exists_cons_of_ne_nil h.ne_nil
  have hc : c ≠ 45 := ne_of_mem_of_not_mem List.mem_cons_self (h.notMem (by decide))
  simpa using hc

theorem parseRange_closed {a b : Str} (ha : IsDecimal a) (hb : IsDecimal b) :
    parseRange (RangeSpec.closed a b).text = .range ⟨strtol a, strtol b⟩ := by
  have hcomma : 44 ∉ a ++ 45 :: b := by
    simp [ha.notMem (show ¬(48 ≤ (44 : UInt8) ∧ _) by decide),
      hb.notMem (show ¬(48 ≤ (44 : UInt8) ∧ _) by decide)]
  rw [RangeSpec.text, parseRange_unit (by simp) hcomma, if_neg (ha.head?_ne _),
    (strtokDash_decimal ha b).1]
  simp only [(strtokDash_decimal hb []).2, Option.map_some, Option.getD_some]

theorem parseRange_openEnd {a : Str} (ha : IsDecimal a) :
    parseRange (RangeSpec.openEnd a).text = .range ⟨strtol a, -1⟩ := by
  have hcomma : 44 ∉ a ++ [45] := by
    simp [ha.notMem (show ¬(48 ≤ (44 : UInt8) ∧ _) by decide)]
  rw [RangeSpec.text, parseRange_unit (by simp) hcomma, if_neg (ha.head?_ne _),
    (strtokDash_decimal ha []).1]
  rfl

theorem parseRange_suffix {n : Str} (hn : IsDecimal n) :
    parseRange (RangeSpec.suffix n).text = .range ⟨strtol (45 :: n), -1⟩ := by
  have hcomma : 44 ∉ 45 :: n := by
    simp [hn.notMem (show ¬(48 ≤ (44 : UInt8) ∧ _) by decide)]
  rw [RangeSpec.text, parseRange_unit (by simp) hcomma, if_pos (by simp)]

/-! ## Positions -/

section

variable {size : Int64}

theorem lt_zero_iff (x : Int64) : x < 0 ↔ x.toInt < 0 := Int64.lt_iff_toInt_lt

theorem toInt_sub_one (hsize : 0 < size.toInt) : (size - 1).toInt = size.toInt - 1 := by
  have hlt := size.toInt_lt
  rw [Int64.toInt_sub]
  have hone : (1 : Int64).toInt = 1 := by decide
  rw [hone]
  exact Int.bmod_eq_of_le (by omega) (by omega)

/-- What `check_request` makes of a range whose ends are `start` and `stop` after they were
counted from the end of the file. -/
theorem checkRange_eq (hsize : 0 < size.toInt) {a b start stop : Int64} (h : a ≠ 0 ∨ b ≠ 0)
    (hstart : (if a < 0 then size - a else a) = start)
    (hstop : (if b < 0 then size - b else b) = stop) :
    checkRange size false ⟨a, b⟩ =
      if 0 ≤ start.toInt ∧ start.toInt ≤ stop.toInt ∧ start.toInt < size.toInt then
        some (⟨start, if size ≤ stop then size - 1 else stop⟩, true)
      else none := by
  have hone := toInt_sub_one hsize
  have hclip : (if size ≤ stop then size - 1 else stop).toInt =
      min stop.toInt (size.toInt - 1) := by
    split
    case isTrue hle =>
      have hle := Int64.le_iff_toInt_le.mp hle
      omega
    case isFalse hlt =>
      have hlt := mt Int64.le_iff_toInt_le.mpr hlt
      omega
  simp only [checkRange, if_pos h, hstart, hstop, Bool.false_eq_true, or_false]
  generalize (if size ≤ stop then size - 1 else stop) = last at hclip ⊢
  have hlast : last < start ↔ last.toInt < start.toInt := Int64.lt_iff_toInt_lt
  have hle : size ≤ start ↔ size.toInt ≤ start.toInt := Int64.le_iff_toInt_le
  simp only [hlast, hle, lt_zero_iff]
  by_cases hin : 0 ≤ start.toInt ∧ start.toInt ≤ stop.toInt ∧ start.toInt < size.toInt
  · rw [if_pos hin, if_neg (by omega), if_neg (by omega), if_neg (by omega)]
  · rw [if_neg hin]
    by_cases hbefore : last.toInt < start.toInt
    · rw [if_pos hbefore]
    · rw [if_neg hbefore, if_pos (by omega)]

end

section

variable {s : ℕ}

theorem ne_zero_of_toInt {x : Int64} (h : x.toInt ≠ 0) : x ≠ 0 := fun h0 ↦ h (by rw [h0]; rfl)

/-- The ends that are in the file. -/
theorem checkRange_nat (hpos : 0 < s) (hs : s < 2 ^ 63) {a b stop : Int64} (h : a ≠ 0 ∨ b ≠ 0)
    {x y : ℕ} (hx : a.toInt = x) (hstop : (if b < 0 then Int64.ofNat s - b else b) = stop)
    (hy : stop.toInt = y) :
    checkRange (Int64.ofNat s) false ⟨a, b⟩ =
      if x ≤ y ∧ x < s then some (⟨Int64.ofNat x, Int64.ofNat (min y (s - 1))⟩, true)
      else none := by
  have hsize := toInt_ofNat hs
  have hstart : (if a < 0 then Int64.ofNat s - a else a) = Int64.ofNat x := by
    rw [if_neg (by rw [lt_zero_iff]; omega)]
    exact eq_ofNat_of_toInt hx
  have hx' : (Int64.ofNat x).toInt = x := eq_ofNat_of_toInt hx ▸ hx
  rw [checkRange_eq (by omega) h hstart hstop, hx', hy, hsize]
  by_cases hin : x ≤ y ∧ x < s
  · rw [if_pos hin, if_pos (by omega)]
    congr 3
    have hle : Int64.ofNat s ≤ stop ↔ (s : ℤ) ≤ y := by
      rw [Int64.le_iff_toInt_le, hsize, hy]
    split
    case isTrue hc =>
      have hc := hle.mp hc
      apply eq_ofNat_of_toInt
      rw [toInt_sub_one (by omega), hsize]
      omega
    case isFalse hc =>
      have hc := mt hle.mpr hc
      apply eq_ofNat_of_toInt
      omega
  · rw [if_neg hin, if_neg (by omega)]

theorem checkRange_closed {a b : Str} (ha : IsDecimal a) (hb : IsDecimal b) (hpos : 0 < s)
    (hs : s < 2 ^ 63) (h : digitsValue a ≠ 0 ∨ digitsValue b ≠ 0) :
    checkRange (Int64.ofNat s) false ⟨strtol a, strtol b⟩ =
      if digitsValue a < s ∧ digitsValue a ≤ digitsValue b then
        some (⟨Int64.ofNat (digitsValue a), Int64.ofNat (min (digitsValue b) (s - 1))⟩, true)
      else none := by
  have hx := ha.toInt_strtol
  have hy := hb.toInt_strtol
  have hne : strtol a ≠ 0 ∨ strtol b ≠ 0 :=
    h.imp (fun h ↦ ne_zero_of_toInt (by omega)) fun h ↦ ne_zero_of_toInt (by omega)
  rw [checkRange_nat (x := min (digitsValue a) (2 ^ 63 - 1))
    (y := min (digitsValue b) (2 ^ 63 - 1)) hpos hs hne (by omega)
    (if_neg (by rw [lt_zero_iff]; omega)) (by omega)]
  by_cases hin : digitsValue a < s ∧ digitsValue a ≤ digitsValue b
  · rw [if_pos hin, if_pos (by omega), min_eq_left (by omega : digitsValue a ≤ 2 ^ 63 - 1)]
    congr 4
    omega
  · rw [if_neg hin, if_neg (by omega)]

/-- A range without an end gets one more than the size for its end. -/
theorem toInt_openStop (hs : s < 2 ^ 63) :
    (Int64.ofNat s - -1).toInt = if s + 1 < 2 ^ 63 then (s : ℤ) + 1 else -2 ^ 63 := by
  have hone : (-1 : Int64).toInt = -1 := by decide
  rw [Int64.toInt_sub, toInt_ofNat hs, hone]
  split
  · rw [Int.bmod_eq_of_le] <;> omega
  · rw [Int.bmod_def, if_neg (by omega)]
    omega

/-- A range from the byte `x` on. -/
theorem checkRange_from {start : Int64} {x : ℕ} (hpos : 0 < s) (hs : s < 2 ^ 63)
    (hx : start.toInt = x) :
    checkRange (Int64.ofNat s) false ⟨start, -1⟩ =
      if x < s ∧ s + 1 < 2 ^ 63 then
        some (⟨Int64.ofNat x, Int64.ofNat (s - 1)⟩, true)
      else none := by
  have hne : start ≠ 0 ∨ (-1 : Int64) ≠ 0 := Or.inr (by decide)
  have hstop : (if (-1 : Int64) < 0 then Int64.ofNat s - -1 else -1) = Int64.ofNat s - -1 :=
    if_pos (by decide)
  have hval := toInt_openStop hs
  by_cases hlarge : s + 1 < 2 ^ 63
  · rw [if_pos hlarge] at hval
    rw [checkRange_nat (y := s + 1) hpos hs hne hx hstop (by omega)]
    by_cases hin : x < s
    · rw [if_pos (by omega), if_pos ⟨hin, hlarge⟩, min_eq_right (by omega)]
    · rw [if_neg (by omega), if_neg (by omega)]
  · rw [if_neg hlarge] at hval
    have hstart : (if start < 0 then Int64.ofNat s - start else start) = start :=
      if_neg (by rw [lt_zero_iff]; omega)
    rw [checkRange_eq (by rw [toInt_ofNat hs]; omega) hne hstart hstop, hval, if_neg (by omega),
      if_neg (by omega)]

/-- Counted from the end, the start is behind the end. -/
theorem checkRange_before {start : Int64} (hpos : 0 < s) (hs : s < 2 ^ 63)
    (hneg : start.toInt < 0) : checkRange (Int64.ofNat s) false ⟨start, -1⟩ = none := by
  have hlow := start.le_toInt
  have hsize := toInt_ofNat hs
  have hval := toInt_openStop hs
  have hstart : (if start < 0 then Int64.ofNat s - start else start) = Int64.ofNat s - start :=
    if_pos ((lt_zero_iff start).mpr hneg)
  have hstop : (if (-1 : Int64) < 0 then Int64.ofNat s - -1 else -1) = Int64.ofNat s - -1 :=
    if_pos (by decide)
  rw [checkRange_eq (by omega) (Or.inr (by decide)) hstart hstop, if_neg]
  have hdiff := Int64.toInt_sub (Int64.ofNat s) start
  rw [hsize] at hdiff
  rintro ⟨hnonneg, -, hlt⟩
  by_cases hwrap : (s : ℤ) - start.toInt < 2 ^ 63
  · rw [Int.bmod_eq_of_le (by omega) (by omega)] at hdiff
    omega
  · rw [Int.bmod_def, if_neg (by omega)] at hdiff
    omega

end

/-! ## Sending -/

theorem sendLoop_append {buf : List UInt8} (tail : List UInt8) {remain : UInt64}
    (hbuf : buf = (buf ++ tail).take (if 2048 < remain then 2048 else remain.toNat))
    (hne : buf ≠ []) :
    sendLoop (buf ++ tail) remain = buf ++ sendLoop tail (remain - UInt64.ofNat buf.length) := by
  rw [sendLoop, ← hbuf, if_neg hne, List.drop_left]

theorem sendLoop_eq (rest : List UInt8) (remain : UInt64) :
    sendLoop rest remain = rest.take remain.toNat := by
  induction hn : rest.length using Nat.strong_induction_on generalizing rest remain with
  | _ n ih =>
      have hk : (if 2048 < remain then 2048 else remain.toNat) = min 2048 remain.toNat := by
        split
        case isTrue hlt =>
          have hlt : 2048 < remain.toNat := UInt64.lt_iff_toNat_lt.mp hlt
          omega
        case isFalse hge =>
          have hge : ¬2048 < remain.toNat := fun hlt ↦ hge (UInt64.lt_iff_toNat_lt.mpr hlt)
          omega
      obtain ⟨buf, hbuf⟩ : ∃ buf, buf = rest.take (min 2048 remain.toNat) := ⟨_, rfl⟩
      obtain ⟨tail, rfl⟩ : ∃ tail, rest = buf ++ tail :=
        ⟨_, hbuf ▸ (List.take_append_drop _ rest).symm⟩
      have hlen : buf.length = min (min 2048 remain.toNat) (buf ++ tail).length := by
        conv_lhs => rw [hbuf]
        exact List.length_take
      rcases eq_or_ne buf [] with rfl | hne
      · rw [sendLoop, hk, ← hbuf, if_pos rfl]
        simp only [List.length_nil, List.nil_append] at hlen
        rcases Nat.eq_zero_or_pos remain.toNat with hzero | hremain
        · rw [hzero, List.take_zero]
        · rw [List.nil_append, List.length_eq_zero_iff.mp (by omega : tail.length = 0),
            List.take_nil]
      · have hpos := List.length_pos_iff.mpr hne
        have hlt := remain.toNat_lt
        have hle : UInt64.ofNat buf.length ≤ remain := by
          rw [UInt64.le_iff_toNat_le, UInt64.toNat_ofNat']
          omega
        rw [List.length_append] at hn
        rw [sendLoop_append tail (hk ▸ hbuf) hne, ih tail.length (by omega) _ _ rfl,
          UInt64.toNat_sub_of_le _ _ hle, UInt64.toNat_ofNat', Nat.mod_eq_of_lt (by omega),
          List.take_append, List.take_of_length_le (by omega : buf.length ≤ remain.toNat)]

section

variable {file : List UInt8} {first last : ℕ}

theorem toNat_ofNat {n : ℕ} (h : n < 2 ^ 63) : (Int64.ofNat n).toUInt64.toNat = n := by
  have hn := Words.toNat_toUInt64 (Int64.ofNat n)
  rw [toInt_ofNat h] at hn
  omega

/-- The bytes of a range that does not end at the first byte. -/
theorem sockSendfile_eq (hle : first ≤ last) (hlast : 0 < last) (hs : last < 2 ^ 63) :
    sockSendfile file (Int64.ofNat first).toUInt64 (Int64.ofNat last).toUInt64 =
      (file.drop first).take (last - first + 1) := by
  have hfirst' := toNat_ofNat (by omega : first < 2 ^ 63)
  have hlast' := toNat_ofNat hs
  have hne : (Int64.ofNat last).toUInt64 ≠ 0 := by
    intro h0
    rw [h0] at hlast'
    exact absurd hlast' hlast.ne
  have hstart : ¬(Int64.ofNat first).toUInt64.toInt64 < 0 := by
    rw [lt_zero_iff, Words.toInt_toInt64, hfirst', Int.bmod_eq_of_le (by omega) (by omega)]
    omega
  have hremain : ((Int64.ofNat last).toUInt64 - (Int64.ofNat first).toUInt64 + 1).toNat =
      last - first + 1 := by
    rw [UInt64.toNat_add, UInt64.toNat_sub_of_le _ _ (UInt64.le_iff_toNat_le.mpr (by omega)),
      hfirst', hlast', UInt64.toNat_one]
    omega
  rw [sockSendfile, if_pos (Or.inr hne), if_neg hstart, sendLoop_eq, hfirst', hremain]

theorem sendHeaders_eq (hle : first ≤ last) (hlast : 0 < last) (hs : last + 1 < 2 ^ 63)
    (size : Int64) : sendHeaders size ⟨Int64.ofNat first, Int64.ofNat last⟩ true =
      ⟨206, (last - first + 1 : ℕ),
        some (.bytes (Int64.ofNat first) (Int64.ofNat last) size)⟩ := by
  have hne : Int64.ofNat last ≠ 0 :=
    ne_zero_of_toInt (by rw [toInt_ofNat (by omega)]; omega)
  have hone : (1 : Int64).toInt = 1 := by decide
  have hdiff : (Int64.ofNat last - Int64.ofNat first).toInt = last - first := by
    rw [Int64.toInt_sub, toInt_ofNat (by omega), toInt_ofNat (by omega),
      Int.bmod_eq_of_le (by omega) (by omega)]
  have hlength : (Int64.ofNat last - Int64.ofNat first + 1).toInt = (last - first + 1 : ℕ) := by
    rw [Int64.toInt_add, hdiff, hone, Int.bmod_eq_of_le (by omega) (by omega)]
    omega
  rw [sendHeaders, if_pos rfl, if_pos ⟨Or.inr hne, rfl⟩, if_pos (Or.inr hne), if_pos rfl, hlength]

end

/-! ## The ranges that are served -/

section

variable {file : List UInt8} {r : RangeSpec} {first last : ℕ}

/-- What is sent with the status 206, from the first byte of the range to the last. -/
def partialResponse (file : List UInt8) (first last : ℕ) : Response :=
  .ok (sendHeaders (Int64.ofNat file.length) ⟨Int64.ofNat first, Int64.ofNat last⟩ true)
    (sockSendfile file (Int64.ofNat first).toUInt64 (Int64.ofNat last).toUInt64)

/-- A range that ends at the first byte is not described. -/
theorem correct_partialResponse_iff (hwanted : r.wanted file.length = some (first, last))
    (hle : first ≤ last) (hlast : last < file.length) (hs : file.length < 2 ^ 63) :
    Correct file r (partialResponse file first last) ↔ 0 < last := by
  rw [Correct, hwanted, partialResponse]
  constructor
  · intro h
    by_contra hzero
    obtain rfl : last = 0 := by omega
    obtain rfl : first = 0 := by omega
    have hnone : sendHeaders (Int64.ofNat file.length) ⟨Int64.ofNat 0, Int64.ofNat 0⟩ true =
        ⟨206, (Int64.ofNat file.length).toInt32.toInt, none⟩ := rfl
    rw [hnone] at h
    rcases h with h | ⟨-, -, h⟩
    · exact nomatch (Headers.mk.inj (Response.ok.inj h).1).2.2
    · exact absurd (Headers.mk.inj (Response.ok.inj h).1).1 (by decide)
  · intro hpos
    rw [sendHeaders_eq hle hpos (by omega), sockSendfile_eq hle hpos (by omega)]
    exact Or.inl rfl

/-- No range is the whole file. -/
theorem correct_whole_iff (hwanted : r.wanted file.length = some (0, 0))
    (hpos : 0 < file.length) (hs : file.length < 2 ^ 63) :
    Correct file r (.ok (sendHeaders (Int64.ofNat file.length) ⟨0, 0⟩ false)
      (sockSendfile file (0 : Int64).toUInt64 (0 : Int64).toUInt64)) ↔ file.length = 1 := by
  have hbody : sockSendfile file (0 : Int64).toUInt64 (0 : Int64).toUInt64 = file := by
    have hzero : ¬((0 : Int64).toUInt64 ≠ 0 ∨ (0 : Int64).toUInt64 ≠ 0) := by decide
    have hall : (-1 : UInt64).toNat = 2 ^ 64 - 1 := by decide
    rw [sockSendfile, if_neg hzero, sendLoop_eq, hall, List.take_of_length_le (by omega)]
  have hheaders : sendHeaders (Int64.ofNat file.length) ⟨0, 0⟩ false =
      ⟨200, (Int64.ofNat file.length).toInt32.toInt, none⟩ := rfl
  rw [Correct, hwanted, hbody, hheaders]
  constructor
  · rintro (h | ⟨-, h, -⟩)
    · exact absurd (Headers.mk.inj (Response.ok.inj h).1).1 (by decide)
    · exact h.symm
  · intro hone
    refine Or.inr ⟨rfl, hone.symm, ?_⟩
    rw [hone]
    rfl

theorem not_correct_notSatisfiable {x : ℕ × ℕ} (hwanted : r.wanted file.length = some x) :
    ¬Correct file r .notSatisfiable := by
  rw [Correct, hwanted]
  rintro (h | ⟨-, -, h⟩) <;> exact nomatch h

theorem correct_notSatisfiable (hwanted : r.wanted file.length = none) :
    Correct file r .notSatisfiable := by
  rw [Correct, hwanted]

theorem respondRange_of_none {value : Str} {b : ByteRange} (hparse : parseRange value = .range b)
    (hcheck : checkRange (Int64.ofNat file.length) false b = none) :
    respondRange file value = .notSatisfiable := by
  rw [respondRange, hparse]
  simp only [hcheck]

theorem respondRange_of_some {value : Str} {b b' : ByteRange} {isPartial : Bool}
    (hparse : parseRange value = .range b)
    (hcheck : checkRange (Int64.ofNat file.length) false b = some (b', isPartial)) :
    respondRange file value = .ok (sendHeaders (Int64.ofNat file.length) b' isPartial)
      (sockSendfile file b'.start.toUInt64 b'.stop.toUInt64) := by
  rw [respondRange, hparse]
  simp only [hcheck]

variable (hpos : 0 < file.length) (hs : file.length < 2 ^ 63)

include hpos hs

theorem correct_closed_iff {a b : Str} (ha : IsDecimal a) (hb : IsDecimal b) :
    Correct file (.closed a b) (respondRange file (RangeSpec.closed a b).text) ↔
      RangeServed file.length (.closed a b) := by
  have hparse := parseRange_closed ha hb
  rw [RangeServed]
  by_cases hzero : digitsValue a = 0 ∧ digitsValue b = 0
  · have hwanted : (RangeSpec.closed a b).wanted file.length = some (0, 0) := by
      rw [RangeSpec.wanted, hzero.1, hzero.2, if_pos ⟨hpos, le_rfl⟩, Nat.zero_min]
    have ha0 : strtol a = 0 := eq_ofNat_of_toInt (n := 0) (by rw [ha.toInt_strtol]; omega)
    have hb0 : strtol b = 0 := eq_ofNat_of_toInt (n := 0) (by rw [hb.toInt_strtol]; omega)
    rw [ha0, hb0] at hparse
    rw [respondRange_of_some hparse (if_neg (by decide)), correct_whole_iff hwanted hpos hs]
    omega
  · have hcheck := checkRange_closed ha hb hpos hs (by omega)
    by_cases hin : digitsValue a < file.length ∧ digitsValue a ≤ digitsValue b
    · have hwanted : (RangeSpec.closed a b).wanted file.length =
          some (digitsValue a, min (digitsValue b) (file.length - 1)) := if_pos hin
      rw [if_pos hin] at hcheck
      rw [respondRange_of_some hparse hcheck]
      refine (correct_partialResponse_iff hwanted (by omega) (by omega) hs).trans ?_
      omega
    · have hwanted : (RangeSpec.closed a b).wanted file.length = none := if_neg hin
      rw [if_neg hin] at hcheck
      rw [respondRange_of_none hparse hcheck, iff_true_left (correct_notSatisfiable hwanted)]
      omega

theorem correct_openEnd_iff {a : Str} (ha : IsDecimal a) :
    Correct file (.openEnd a) (respondRange file (RangeSpec.openEnd a).text) ↔
      RangeServed file.length (.openEnd a) := by
  have hparse := parseRange_openEnd ha
  have hval := ha.toInt_strtol
  have hcheck := checkRange_from (x := min (digitsValue a) (2 ^ 63 - 1)) hpos hs (by omega)
  rw [RangeServed]
  by_cases hin : digitsValue a < file.length
  · have hwanted : (RangeSpec.openEnd a).wanted file.length =
        some (digitsValue a, file.length - 1) := if_pos hin
    by_cases hlarge : file.length + 1 < 2 ^ 63
    · rw [if_pos (by omega), min_eq_left (by omega)] at hcheck
      rw [respondRange_of_some hparse hcheck]
      refine (correct_partialResponse_iff hwanted (by omega) (by omega) hs).trans ?_
      omega
    · rw [if_neg (by omega)] at hcheck
      rw [respondRange_of_none hparse hcheck, iff_false_left (not_correct_notSatisfiable hwanted)]
      omega
  · have hwanted : (RangeSpec.openEnd a).wanted file.length = none := if_neg hin
    rw [if_neg (by omega)] at hcheck
    rw [respondRange_of_none hparse hcheck, iff_true_left (correct_notSatisfiable hwanted)]
    omega

theorem correct_suffix_iff {n : Str} (hn : IsDecimal n) :
    Correct file (.suffix n) (respondRange file (RangeSpec.suffix n).text) ↔
      RangeServed file.length (.suffix n) := by
  have hparse := parseRange_suffix hn
  have hval := toInt_strtol_neg n
  rw [RangeServed]
  by_cases hzero : digitsValue n = 0
  · have hwanted : (RangeSpec.suffix n).wanted file.length = none := if_pos hzero
    have hcheck := checkRange_from (x := 0) hpos hs (by omega : (strtol (45 :: n)).toInt = _)
    by_cases hlarge : file.length + 1 < 2 ^ 63
    · rw [if_pos ⟨hpos, hlarge⟩] at hcheck
      rw [respondRange_of_some hparse hcheck, Correct, hwanted]
      refine iff_of_false (fun h ↦ nomatch h) (by omega)
    · rw [if_neg (by omega)] at hcheck
      rw [respondRange_of_none hparse hcheck, iff_true_left (correct_notSatisfiable hwanted)]
      omega
  · have hwanted : (RangeSpec.suffix n).wanted file.length =
        some (file.length - min (digitsValue n) file.length, file.length - 1) := if_neg hzero
    rw [respondRange_of_none hparse (checkRange_before hpos hs (by omega)),
      iff_false_left (not_correct_notSatisfiable hwanted)]
    omega

end

/-- A range is answered as it should be just for these. -/
theorem respondRange_correct_iff {file : List UInt8} (hpos : 0 < file.length)
    (hs : file.length < 2 ^ 63) {r : RangeSpec} (hr : r.Decimal) :
    Correct file r (respondRange file r.text) ↔ RangeServed file.length r := by
  cases r with
  | closed a b => exact correct_closed_iff hpos hs hr.1 hr.2
  | openEnd a => exact correct_openEnd_iff hpos hs hr
  | suffix n => exact correct_suffix_iff hpos hs hr

/-- The bytes "1-2" of a file of four. -/
theorem respondRange_correct_middle :
    Correct [7, 8, 9, 10] (.closed [49] [50])
      (respondRange [7, 8, 9, 10] (RangeSpec.closed [49] [50]).text) := by
  have hdecimal : (RangeSpec.closed [49] [50]).Decimal :=
    ⟨⟨by decide, by decide⟩, by decide, by decide⟩
  exact (respondRange_correct_iff (by decide) (by decide) hdecimal).mpr
    (Or.inr (Or.inr (by decide)))

/-- The last two bytes of a file of four are refused. -/
theorem respondRange_suffix_refused :
    (RangeSpec.suffix [50]).Decimal ∧
      ¬Correct [7, 8, 9, 10] (.suffix [50])
        (respondRange [7, 8, 9, 10] (RangeSpec.suffix [50]).text) := by
  have hdecimal : IsDecimal [50] := ⟨by decide, by decide⟩
  refine ⟨hdecimal, fun h ↦ ?_⟩
  have hserved := (correct_suffix_iff (by decide) (by decide) hdecimal).mp h
  exact absurd hserved.1 (by decide)

end Synchronet.Sbbs3.WebSrvr
