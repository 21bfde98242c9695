import Mathlib.Data.UInt
import Synchronet.Sbbs3.UserNumbers
import Synchronet.Smblib.Defs
import Synchronet.Xpdev.Genwrap

/-!
# Dates of RFC 822 (msgdate.c)

`msgdate` writes the time of a message in local time with the offset of its zone, and
`rfc822date` reads such a date.  The functions of the C library that convert times are
parameters.
-/

namespace Synchronet.Sbbs3

open Smblib (WhenT atoi digitsValue)
open Xpdev (Str isdigit stricmp strnicmp)

/-! ## Zones -/

def smbDstOffset : ℤ := 60

/-- `smb_tzutc`, minutes east of UTC. -/
def smbTzutc (zone : UInt16) : ℤ :=
  let signed := zone.toInt16.toInt
  -- OTHER_ZONE
  if signed ≤ 1000 ∧ -1000 ≤ signed then signed
  else
    let tz : ℤ := (zone &&& 0xfff).toNat
    let offset := if zone &&& 0x8000 ≠ 0 then smbDstOffset else 0
    -- WESTERN_ZONE or US_ZONE
    if zone &&& 0x6000 ≠ 0 then -(tz - offset) else tz + offset

/-! ## Writing a date -/

/-- The fields of a `struct tm` that are used. -/
structure Tm where
  sec : ℤ := 0
  min : ℤ := 0
  hour : ℤ := 0
  mday : ℤ := 0
  mon : ℤ := 0
  year : ℤ := 0
  wday : ℤ := 0
  isdst : ℤ := 0

/-- `%d` -/
def intText (n : ℤ) : Str := if n < 0 then 45 :: ultoa n.natAbs 10 else ultoa n.toNat 10

/-- `%02d` -/
def paddedText (n : ℤ) : Str := if 0 ≤ n ∧ n < 10 then 48 :: intText n else intText n

/-- The days from Sunday on. -/
def wdays : List Str :=
  [[83, 117, 110], [77, 111, 110], [84, 117, 101], [87, 101, 100], [84, 104, 117], [70, 114, 105],
    [83, 97, 116]]

/-- The months from January on. -/
def mons : List Str :=
  [[74, 97, 110], [70, 101, 98], [77, 97, 114], [65, 112, 114], [77, 97, 121], [74, 117, 110],
    [74, 117, 108], [65, 117, 103], [83, 101, 112], [79, 99, 116], [78, 111, 118], [68, 101, 99]]

/-- An element of an array of names, none outside of it. -/
def nameAt (names : List Str) (i : ℤ) : Option Str := if 0 ≤ i then names[i.toNat]? else none

/-- The offset of a zone: its sign, the hours and the minutes. -/
def offsetText (tz : ℤ) : Str :=
  let plus := if tz < 0 then 45 else 43
  let tz := if tz < 0 then -tz else tz
  plus :: (paddedText (tz / 60) ++ paddedText (tz % 60))

/-- The text of `msgdate` for a time that has been broken down. -/
def dateText (tm : Tm) (tz : ℤ) : Option Str := do
  let wday ← nameAt wdays tm.wday
  let mon ← nameAt mons tm.mon
  pure (wday ++ [44, 32] ++ (intText tm.mday ++ 32 :: (mon ++ 32 :: (intText (1900 + tm.year) ++
    32 :: (paddedText tm.hour ++ 58 :: (paddedText tm.min ++ 58 :: (paddedText tm.sec ++
      32 :: offsetText tz)))))))

/-- `msgdate`, where `localtime` may fail. -/
def msgdate (localtime : ℤ → Option Tm) (when : WhenT) : Option Str :=
  dateText ((localtime when.time.toNat).getD {}) (smbTzutc when.zone)

/-! ## Reading a date -/

/-- `*p <= ' '` for a signed character. -/
def belowBlank (c : UInt8) : Bool := c ≤ 32 || 128 ≤ c

def skipNumber (p : Str) : Str := p.dropWhile isdigit

def skipBlanks (p : Str) : Str := p.dropWhile belowBlank

/-- `p += n`; nothing is read beyond the terminator. -/
def advance (n : ℕ) (p : Str) : Option Str := if n ≤ p.length then some (p.drop n) else none

/-- The month in the format `%3.3s`; a name that is not known is December. -/
def monthNumber (p : Str) : ℤ :=
  let month := List.replicate (3 - (p.take 3).length) 32 ++ p.take 3
  match (mons.take 11).findIdx? (stricmp month) with
  | some i => i
  | none => 11

def y2k2digitWindow : ℤ := 70

/-- The year as `tm_year` counts it. -/
def yearNumber (year : ℤ) : ℤ :=
  if year < y2k2digitWindow then year + 100
  else if 1900 < year then year - 1900
  else year

/-- The zones of the United States by their names. -/
def usZones : List (Str × UInt16) :=
  -- PDT, MDT, CDT, EDT, PST, MST, CST, EST
  [([80, 68, 84], 0xC1E0), ([77, 68, 84], 0xC1A4), ([67, 68, 84], 0xC168), ([69, 68, 84], 0xC12C),
    ([80, 83, 84], 0x41E0), ([77, 83, 84], 0x41A4), ([67, 83, 84], 0x4168), ([69, 83, 84], 0x412C)]

/-- The hours, which take up `width` characters, and the minutes behind them. -/
def zoneDigits (width : ℕ) (p : Str) : Option UInt16 := do
  let zone := UInt16.ofInt (atoi (p.take width) * 60)
  let p ← advance width p
  let minutes := UInt16.ofInt (atoi p)
  pure (if zone.toInt16 < 0 then zone - minutes else zone + minutes)

/-- A zone in the format `[+|-]HHMM`. -/
def zoneNumber (p : Str) : Option UInt16 :=
  let p := if p.head? = some 43 then p.drop 1 else p
  zoneDigits (if p.head? = some 45 then 3 else 2) p

/-- The zone at the end of a date. -/
def readZone (p : Str) : Option UInt16 :=
  match p with
  | [] => some 0
  | c :: _ =>
      if isdigit c ∨ c = 45 ∨ c = 43 then zoneNumber p
      else some (((usZones.find? fun z ↦ strnicmp p z.1).map Prod.snd).getD 0)

/-- `rfc822date` -/
def rfc822date (mktime : Tm → ℤ) (date : Str) : Option WhenT := do
  let p := (skipBlanks date).dropWhile fun c ↦ !isdigit c
  let mday := atoi p
  let p := skipBlanks (skipNumber p)
  let mon := monthNumber p
  let p ← advance 4 p
  let year := yearNumber (atoi p)
  let p := skipBlanks (skipNumber p)
  let hour := atoi p
  let p := (skipNumber p).drop 1
  let min := atoi p
  let p := (skipNumber p).drop 1
  let sec := atoi p
  let zone ← readZone (skipBlanks (skipNumber p))
  let tm : Tm := { sec, min, hour, mday, mon, year, isdst := -1 }
  pure { time := UInt32.ofInt (mktime tm), zone }


/-! ## Numbers -/

/-- The digits of a number, which may have zeros in front. -/
structure Digits (n : ℤ) (d : Str) : Prop where
  ne_nil : d ≠ []
  digits : ∀ c ∈ d, 48 ≤ c ∧ c ≤ 57
  value : (digitsValue d : ℤ) = n

namespace Digits

variable {n : ℤ} {d s : Str} {c : UInt8}

theorem atoi_append (h : Digits n d) (hs : ∀ c ∈ s.head?, ¬(48 ≤ c ∧ c ≤ 57)) :
    atoi (d ++ s) = n := by
  rw [Sbbs3.atoi_append h.ne_nil h.digits hs, h.value]

theorem atoi_self (h : Digits n d) : atoi d = n := by
  simpa using h.atoi_append (s := []) (by simp)

theorem head (h : Digits n d) : ∃ c t, d = c :: t ∧ 48 ≤ c ∧ c ≤ 57 := by
  obtain ⟨c, t, rfl⟩ := List.exists_cons_of_ne_nil h.ne_nil
  exact ⟨c, t, rfl, h.digits c List.mem_cons_self⟩

theorem skipNumber_append (h : Digits n d) (hc : isdigit c = false) :
    skipNumber (d ++ c :: s) = c :: s := by
  have hdigits : ∀ c ∈ d, isdigit c = true := fun c hc ↦ decide_eq_true (h.digits c hc)
  rw [skipNumber, List.dropWhile_append_of_pos hdigits, List.dropWhile_cons_of_neg (by simp [hc])]

theorem skipBlanks_append (h : Digits n d) : skipBlanks (32 :: (d ++ s)) = d ++ s := by
  obtain ⟨c, t, rfl, hlow, hhigh⟩ := h.head
  have hblank : belowBlank c = false := by
    have hlow := UInt8.le_iff_toNat_le.mp hlow
    have hhigh := UInt8.le_iff_toNat_le.mp hhigh
    simp only [belowBlank, Bool.or_eq_false_iff, decide_eq_false_iff_not, UInt8.le_iff_toNat_le]
    exact ⟨fun hle ↦ absurd (hlow.trans hle) (by decide),
      fun hle ↦ absurd (hle.trans hhigh) (by decide)⟩
  have hspace : belowBlank 32 = true := by decide
  rw [skipBlanks, List.dropWhile_cons_of_pos hspace, List.cons_append,
    List.dropWhile_cons_of_neg (by simp [hblank])]

end Digits

theorem intText_of_nonneg {n : ℤ} (h : 0 ≤ n) : intText n = ultoa n.toNat 10 :=
  if_neg (not_lt.mpr h)

theorem digits_intText {n : ℤ} (h : 0 ≤ n) : Digits n (intText n) := by
  rw [intText_of_nonneg h]
  exact ⟨ultoa_ne_nil _ _, digits_ultoa _, by rw [digitsValue_ultoa, Int.toNat_of_nonneg h]⟩

theorem digits_paddedText {n : ℤ} (h : 0 ≤ n) : Digits n (paddedText n) := by
  have hint := digits_intText h
  rw [paddedText]
  split
  · exact ⟨List.cons_ne_nil _ _, List.forall_mem_cons.mpr ⟨by decide, hint.digits⟩,
      by rw [digitsValue_zero_cons, hint.value]⟩
  · exact hint

theorem length_paddedText {n : ℤ} (h : 0 ≤ n) (hlt : n < 100) : (paddedText n).length = 2 := by
  rw [paddedText, intText_of_nonneg h]
  split
  · next hsmall => rw [ultoa_of_lt (by omega), List.length_cons, List.length_singleton]
  · next hlarge =>
    rw [ultoa_of_le (by decide) (by omega), ultoa_of_lt (by omega)]
    rfl

/-! ## The zone that is read -/

theorem toInt16_ofInt {n : ℤ} (hlow : -1000 ≤ n) (hhigh : n ≤ 1000) :
    (UInt16.ofInt n).toInt16.toInt = n := by
  have hofInt : (UInt16.ofInt n).toInt16 = Int16.ofInt n := by
    apply Int16.toInt_inj.mp
    have hmod : ((n % 2 ^ 16).toNat : ℤ) = n % 2 ^ 16 :=
      Int.toNat_of_nonneg (Int.emod_nonneg _ (by decide))
    rw [UInt16.ofInt, UInt16.toInt16_ofNat', Int16.toInt_ofNat', Int16.toInt_ofInt, hmod]
    exact Int.emod_bmod n 65536
  rw [hofInt, Int16.toInt_ofInt_of_le (by omega) (by omega)]

theorem smbTzutc_ofInt {n : ℤ} (hlow : -1000 ≤ n) (hhigh : n ≤ 1000) :
    smbTzutc (UInt16.ofInt n) = n := by
  simp only [smbTzutc, toInt16_ofInt hlow hhigh]
  rw [if_pos ⟨hhigh, hlow⟩]

/-- The number behind a minus sign. -/
theorem Digits.atoi_neg {n : ℤ} {d : Str} (h : Digits n d) : atoi (45 :: d) = -n := by
  have hspace : (45 :: d).dropWhile Smblib.isspace = 45 :: d :=
    List.dropWhile_cons_of_neg (by decide)
  rw [atoi, hspace, ← h.value]
  rfl

section Offset

variable {m : ℤ}

theorem zoneDigits_append {front d : Str} {width : ℕ} {h k : ℤ} (hlen : front.length = width)
    (hfront : atoi front = h) (hlow : -1000 ≤ h * 60) (hhigh : h * 60 ≤ 1000) (hd : Digits k d) :
    zoneDigits width (front ++ d) =
      some (UInt16.ofInt (if h < 0 then h * 60 - k else h * 60 + k)) := by
  have hsign : (UInt16.ofInt (h * 60)).toInt16 < 0 ↔ h < 0 := by
    have hzero : Int16.toInt 0 = 0 := rfl
    rw [Int16.lt_iff_toInt_lt, toInt16_ofInt hlow hhigh, hzero]
    omega
  have hadvance : advance width (front ++ d) = some d := by
    rw [advance, if_pos (by rw [List.length_append, hlen]; omega), List.drop_left' hlen]
  simp only [zoneDigits, hadvance, List.take_left' hlen, hfront, hd.atoi_self, hsign,
    Option.bind_eq_bind, Option.bind_some, Option.pure_def]
  split
  · have hsub : h * 60 - k = h * 60 + -k := Int.sub_eq_add_neg
    rw [hsub, UInt16.ofInt_add, UInt16.ofInt_neg, ← UInt16.sub_eq_add_neg]
  · rw [UInt16.ofInt_add]

/-- The hours and the minutes are read behind a plus sign. -/
theorem zoneNumber_east (hlow : 0 ≤ m) (hhigh : m ≤ 840) :
    zoneNumber (43 :: (paddedText (m / 60) ++ paddedText (m % 60))) = some (UInt16.ofInt m) := by
  have hhours := digits_paddedText (show 0 ≤ m / 60 by omega)
  have hminutes := digits_paddedText (show 0 ≤ m % 60 by omega)
  have htwo := length_paddedText (show 0 ≤ m / 60 by omega) (by omega)
  have hhead : (paddedText (m / 60) ++ paddedText (m % 60)).head? ≠ some 45 := by
    obtain ⟨c, t, hcons, hc, -⟩ := hhours.head
    rw [hcons]
    intro heq
    obtain rfl := Option.some.inj heq
    exact absurd hc (by decide)
  have hplus : zoneNumber (43 :: (paddedText (m / 60) ++ paddedText (m % 60))) =
      zoneDigits 2 (paddedText (m / 60) ++ paddedText (m % 60)) := by
    rw [zoneNumber, List.head?_cons, if_pos rfl, List.drop_one, List.tail_cons, if_neg hhead]
  rw [hplus, zoneDigits_append htwo hhours.atoi_self (by omega) (by omega) hminutes,
    if_neg (by omega)]
  exact congrArg (fun n ↦ some (UInt16.ofInt n)) (by omega)

/-- The hours take the minus sign, and the minutes only if the hours have it. -/
theorem zoneNumber_west (hlow : 0 ≤ m) (hhigh : m ≤ 840) :
    zoneNumber (45 :: (paddedText (m / 60) ++ paddedText (m % 60))) =
      some (UInt16.ofInt (if m < 60 then m else -m)) := by
  have hhours := digits_paddedText (show 0 ≤ m / 60 by omega)
  have hminutes := digits_paddedText (show 0 ≤ m % 60 by omega)
  have htwo := length_paddedText (show 0 ≤ m / 60 by omega) (by omega)
  have hthree : (45 :: paddedText (m / 60)).length = 3 := by rw [List.length_cons, htwo]
  have hminus : zoneNumber (45 :: (paddedText (m / 60) ++ paddedText (m % 60))) =
      zoneDigits 3 (45 :: paddedText (m / 60) ++ paddedText (m % 60)) := rfl
  rw [hminus, zoneDigits_append hthree hhours.atoi_neg (by omega) (by omega) hminutes]
  refine congrArg (fun n ↦ some (UInt16.ofInt n)) ?_
  by_cases hsmall : m < 60
  · rw [if_pos hsmall, if_neg (by omega)]
    omega
  · rw [if_neg hsmall, if_pos (by omega)]
    omega

end Offset

/-- The offset is read, but not the sign of one of less than an hour. -/
theorem readZone_offsetText {tz : ℤ} (hwest : -720 ≤ tz) (heast : tz ≤ 840) :
    readZone (offsetText tz) = some (UInt16.ofInt (if -60 < tz ∧ tz < 0 then -tz else tz)) := by
  by_cases hneg : tz < 0
  · simp only [offsetText, hneg, if_true]
    rw [readZone, if_pos (by decide), zoneNumber_west (by omega) (by omega)]
    by_cases hsmall : -tz < 60
    · rw [if_pos hsmall, if_pos ⟨by omega, trivial⟩]
    · rw [if_neg hsmall, if_neg fun h ↦ hsmall (by omega), neg_neg]
  · simp only [offsetText, hneg, if_false]
    rw [readZone, if_pos (by decide), zoneNumber_east (by omega) (by omega),
      if_neg fun h ↦ h.2]


/-! ## The date that is read -/

/-- The ranges of the fields, and the years that 32 bits of seconds reach. -/
structure Tm.Valid (tm : Tm) : Prop where
  sec : 0 ≤ tm.sec ∧ tm.sec ≤ 60
  min : 0 ≤ tm.min ∧ tm.min ≤ 59
  hour : 0 ≤ tm.hour ∧ tm.hour ≤ 23
  mday : 1 ≤ tm.mday ∧ tm.mday ≤ 31
  mon : 0 ≤ tm.mon ∧ tm.mon ≤ 11
  year : 69 ≤ tm.year ∧ tm.year ≤ 206
  wday : 0 ≤ tm.wday ∧ tm.wday ≤ 6

theorem exists_nameAt (names : List Str) {i : ℤ} (hlow : 0 ≤ i) (hhigh : i < names.length) :
    ∃ name, nameAt names i = some name ∧ names[i.toNat]? = some name := by
  have hlt : i.toNat < names.length := by omega
  exact ⟨names[i.toNat], by rw [nameAt, if_pos hlow, List.getElem?_eq_getElem hlt],
    List.getElem?_eq_getElem hlt⟩

/-- The names start with a letter. -/
theorem startsDark_of_all (names : List Str)
    (hall : (names.all fun w ↦ w.head?.any fun c ↦ !belowBlank c) = true) {w : Str}
    (hw : w ∈ names) : w ≠ [] ∧ ∀ c ∈ w.head?, belowBlank c = false := by
  have hhead := List.all_eq_true.mp hall w hw
  cases w with
  | nil => cases hhead
  | cons c w => simpa using hhead

/-- The day of the week is skipped. -/
theorem skip_wday {w d s : Str} {n : ℤ} (hw : w ∈ wdays) (hd : Digits n d) :
    ((skipBlanks (w ++ [44, 32] ++ (d ++ s))).dropWhile fun c ↦ !isdigit c) = d ++ s := by
  have hall : (wdays.all fun w ↦ (w ++ [44, 32]).all fun c ↦ !isdigit c) = true := rfl
  have hletters := List.all_eq_true.mp (List.all_eq_true.mp hall w hw)
  obtain ⟨hne, hfirst⟩ := startsDark_of_all wdays rfl hw
  obtain ⟨c, w, rfl⟩ := List.exists_cons_of_ne_nil hne
  have hblank : skipBlanks (c :: w ++ [44, 32] ++ (d ++ s)) = c :: w ++ [44, 32] ++ (d ++ s) :=
    List.dropWhile_cons_of_neg (by simp [hfirst c rfl])
  obtain ⟨e, t, rfl, he⟩ := hd.head
  have hdigit : isdigit e = true := decide_eq_true he
  rw [hblank, List.dropWhile_append_of_pos hletters, List.cons_append,
    List.dropWhile_cons_of_neg (by simp [hdigit])]

/-- The month is known by its first three letters. -/
theorem monthNumber_append {i : ℕ} {name : Str} (h : mons[i]? = some name) (s : Str) :
    monthNumber (name ++ s) = i ∧ name.length = 3 := by
  have hthree : ∀ name ∈ mons, name.length = 3 := by decide
  have hlen := hthree name (List.mem_of_getElem? h)
  have htake : monthNumber (name ++ s) = monthNumber name := by
    have hself : name.take 3 = name := List.take_of_length_le hlen.le
    rw [monthNumber, monthNumber, List.take_left' hlen, hself]
  have hall : ∀ i < mons.length, monthNumber (mons.getD i []) = i := by decide +kernel
  obtain ⟨hlt, -⟩ := List.getElem?_eq_some_iff.mp h
  have hi := hall i hlt
  rw [List.getD_eq_getElem?_getD, h, Option.getD_some] at hi
  exact ⟨htake.trans hi, hlen⟩

theorem yearNumber_add {year : ℤ} (h : 69 ≤ year) : yearNumber (1900 + year) = year := by
  rw [yearNumber, if_neg (by rw [y2k2digitWindow]; omega), if_pos (by omega)]
  omega

/-- The fields of a date are read back, and the zone at its end. -/
theorem rfc822date_dateText (mktime : Tm → ℤ) {tm : Tm} (h : tm.Valid) (tz : ℤ) :
    ∃ text, dateText tm tz = some text ∧ rfc822date mktime text =
      (readZone (offsetText tz)).map fun zone ↦
        { time := UInt32.ofInt (mktime { tm with wday := 0, isdst := -1 }), zone } := by
  have hwdays : tm.wday < wdays.length := Int.lt_add_one_of_le h.wday.2
  have hmons : tm.mon < mons.length := Int.lt_add_one_of_le h.mon.2
  obtain ⟨wday, hwday, hwdayAt⟩ := exists_nameAt wdays h.wday.1 hwdays
  obtain ⟨mon, hmon, hmonAt⟩ := exists_nameAt mons h.mon.1 hmons
  have hmday := digits_intText (le_trans (by decide) h.mday.1)
  have hyear := digits_intText (show 0 ≤ 1900 + tm.year by have := h.year.1; omega)
  have hhour := digits_paddedText h.hour.1
  have hmin := digits_paddedText h.min.1
  have hsec := digits_paddedText h.sec.1
  have hspace : isdigit 32 = false := by decide
  have hcolon : isdigit 58 = false := by decide
  have hmonth : ∀ s, skipBlanks (32 :: (mon ++ s)) = mon ++ s := by
    obtain ⟨hne, hletter⟩ := startsDark_of_all mons rfl (List.mem_of_getElem? hmonAt)
    obtain ⟨c, t, rfl⟩ := List.exists_cons_of_ne_nil hne
    intro s
    have hc : belowBlank c = false := hletter c rfl
    rw [skipBlanks, List.dropWhile_cons_of_pos (by decide), List.cons_append,
      List.dropWhile_cons_of_neg (by simp [hc])]
  have hadvance : ∀ s, advance 4 (mon ++ 32 :: s) = some s := by
    intro s
    have hlen : (mon ++ [32]).length = 4 := by
      rw [List.length_append, (monthNumber_append hmonAt s).2, List.length_singleton]
    rw [List.append_cons, advance, if_pos (by rw [List.length_append, hlen]; omega),
      List.drop_left' hlen]
  have hzone : skipBlanks (32 :: offsetText tz) = offsetText tz := by
    have hsign : belowBlank (if tz < 0 then 45 else 43) = false := by split <;> decide
    rw [offsetText, skipBlanks, List.dropWhile_cons_of_pos (by decide),
      List.dropWhile_cons_of_neg (by simp [hsign])]
  have hmonthNumber := fun s ↦ (monthNumber_append hmonAt s).1
  rw [Int.toNat_of_nonneg h.mon.1] at hmonthNumber
  refine ⟨_, by rw [dateText, hwday, hmon]; rfl, ?_⟩
  simp only [rfc822date, skip_wday (List.mem_of_getElem? hwdayAt) hmday,
    hmday.atoi_append (s := 32 :: _) (by simp), hmday.skipNumber_append hspace, hmonth,
    hmonthNumber, hadvance, hyear.atoi_append (s := 32 :: _) (by simp), yearNumber_add h.year.1,
    hyear.skipNumber_append hspace, hhour.skipBlanks_append,
    hhour.atoi_append (s := 58 :: _) (by simp), hhour.skipNumber_append hcolon, List.drop_one,
    List.tail_cons, hmin.atoi_append (s := 58 :: _) (by simp), hmin.skipNumber_append hcolon,
    hsec.atoi_append (s := 32 :: _) (by simp), hsec.skipNumber_append hspace, hzone,
    Option.bind_eq_bind, Option.bind_some, Option.pure_def]
  cases readZone (offsetText tz) <;> rfl

/-! ## The round trip -/

variable (localtime : ℤ → Option Tm) (mktime : Tm → ℤ) (when : WhenT) {tm : Tm}

theorem rfc822date_msgdate (hlocal : localtime when.time.toNat = some tm) (h : tm.Valid)
    (hmktime : mktime { tm with wday := 0, isdst := -1 } = when.time.toNat)
    (hwest : -720 ≤ smbTzutc when.zone) (heast : smbTzutc when.zone ≤ 840) :
    ∃ text, msgdate localtime when = some text ∧ rfc822date mktime text =
      some { time := when.time
             zone := UInt16.ofInt (if -60 < smbTzutc when.zone ∧ smbTzutc when.zone < 0 then
               -smbTzutc when.zone else smbTzutc when.zone) } := by
  obtain ⟨text, htext, hread⟩ := rfc822date_dateText mktime h (smbTzutc when.zone)
  have htime : UInt32.ofInt (when.time.toNat : ℤ) = when.time := by
    apply UInt32.toNat_inj.mp
    have hlt := when.time.toNat_lt
    rw [UInt32.ofInt, UInt32.toNat_ofNat']
    omega
  refine ⟨text, by rw [msgdate, hlocal, Option.getD_some, htext], ?_⟩
  rw [hread, readZone_offsetText hwest heast, Option.map_some, hmktime, htime]

/-- A date is read back unless its zone is less than an hour west of UTC. -/
theorem rfc822date_msgdate_iff (hlocal : localtime when.time.toNat = some tm) (h : tm.Valid)
    (hmktime : mktime { tm with wday := 0, isdst := -1 } = when.time.toNat)
    (hwest : -720 ≤ smbTzutc when.zone) (heast : smbTzutc when.zone ≤ 840) :
    (∃ text w, msgdate localtime when = some text ∧ rfc822date mktime text = some w ∧
      w.time = when.time ∧ smbTzutc w.zone = smbTzutc when.zone) ↔
      ¬(-59 ≤ smbTzutc when.zone ∧ smbTzutc when.zone ≤ -1) := by
  obtain ⟨text, htext, hread⟩ := rfc822date_msgdate localtime mktime when hlocal h hmktime
    hwest heast
  have hexists : (∃ text w, msgdate localtime when = some text ∧
      rfc822date mktime text = some w ∧ w.time = when.time ∧
        smbTzutc w.zone = smbTzutc when.zone) ↔
      smbTzutc (UInt16.ofInt (if -60 < smbTzutc when.zone ∧ smbTzutc when.zone < 0 then
        -smbTzutc when.zone else smbTzutc when.zone)) = smbTzutc when.zone := by
    constructor
    · rintro ⟨text', w, htext', hw, -, hzone⟩
      obtain rfl := Option.some.inj (htext.symm.trans htext')
      obtain rfl := Option.some.inj (hread.symm.trans hw)
      exact hzone
    · intro hzone
      exact ⟨text, _, htext, hread, rfl, hzone⟩
  rw [hexists]
  split
  · next hsmall =>
    rw [smbTzutc_ofInt (by omega) (by omega)]
    omega
  · next hlarge =>
    rw [smbTzutc_ofInt (by omega) (by omega)]
    omega

/-- Sunday, 9 September 2001, 07:16:40. -/
def september : Tm :=
  { sec := 40, min := 16, hour := 7, mday := 9, mon := 8, year := 101, wday := 0 }

theorem september_valid : september.Valid := by
  constructor <;> decide

/-- A date in Bombay. -/
theorem rfc822date_msgdate_bombay :
    (∃ text w, msgdate (fun _ ↦ some september) ⟨1000000000, 0x114A⟩ = some text ∧
      rfc822date (fun _ ↦ 1000000000) text = some w ∧ w.time = 1000000000 ∧
        smbTzutc w.zone = smbTzutc 0x114A) ↔
      ¬(-59 ≤ smbTzutc 0x114A ∧ smbTzutc 0x114A ≤ -1) :=
  rfc822date_msgdate_iff _ _ ⟨1000000000, 0x114A⟩ rfl september_valid rfl (by decide) (by decide)

/-- Half an hour west of UTC is read as half an hour east of it. -/
theorem not_rfc822date_msgdate :
    -720 ≤ smbTzutc 65506 ∧ smbTzutc 65506 ≤ 840 ∧
      ¬∃ text w, msgdate (fun _ ↦ some september) ⟨1000000000, 65506⟩ = some text ∧
        rfc822date (fun _ ↦ 1000000000) text = some w ∧ w.time = 1000000000 ∧
          smbTzutc w.zone = smbTzutc 65506 := by
  refine ⟨by decide, by decide, ?_⟩
  rintro ⟨text, w, htext, hw, -, hzone⟩
  have hread := rfc822date_msgdate (fun _ ↦ some september) (fun _ ↦ 1000000000)
    ⟨1000000000, 65506⟩ rfl september_valid rfl (by decide) (by decide)
  obtain ⟨text', htext', hread⟩ := hread
  obtain rfl := Option.some.inj (htext'.symm.trans htext)
  obtain rfl := Option.some.inj (hread.symm.trans hw)
  exact absurd hzone (by decide)

end Synchronet.Sbbs3
