import Mathlib.Data.UInt
import Synchronet.Xpdev.Scanf

/-!
# ISO 8601 dates and times (xpdatetime.c)

A date and time with its zone is written as text, with or without separators, and read by one
format after another.  How the C library prints and reads `%f` is given.
-/

namespace Synchronet.Xpdev

open Smblib (isspace)

/-! ## Dates and times -/

structure XpDate where
  year : UInt32
  month : UInt32
  day : UInt32
  deriving DecidableEq

structure XpTime (F : Type) where
  hour : UInt32
  minute : UInt32
  second : F
  deriving DecidableEq

/-- The zone is in minutes from UTC. -/
structure XpDateTime (F : Type) where
  date : XpDate
  time : XpTime F
  zone : Int32
  deriving DecidableEq

/-- `float` in the C library: `%0*.*f`, and what `%f` reads behind white space. -/
structure CFloat (F : Type) where
  zero : F
  print : ℕ → ℕ → F → Str
  read : Str → Option (F × Str)

variable {F : Type}

/-! ## To text -/

def snprintf (maxlen : ℕ) (text : Str) : Str := text.take (maxlen - 1)

/-- A separator may be NULL. -/
def xpDateToIsoDateStr (date : XpDate) (sep : Option Str) (maxlen : ℕ) : Str :=
  let sep := sep.getD [45]
  snprintf maxlen (zeroPadded 4 date.year.toNat ++ sep ++ zeroPadded 2 date.month.toNat ++ sep ++
    zeroPadded 2 date.day.toNat)

def xpTimeToIsoTimeStr (f : CFloat F) (ti : XpTime F) (sep : Option Str) (precision : ℤ)
    (maxlen : ℕ) : Str :=
  let sep := sep.getD [58]
  if precision < -1 then snprintf maxlen (zeroPadded 2 ti.hour.toNat)
  else if precision < 0 then
    snprintf maxlen (zeroPadded 2 ti.hour.toNat ++ sep ++ zeroPadded 2 ti.minute.toNat)
  else
    snprintf maxlen (zeroPadded 2 ti.hour.toNat ++ sep ++ zeroPadded 2 ti.minute.toNat ++ sep ++
      f.print (if precision = 0 then 2 else precision.toNat + 3) precision.toNat ti.second)

def xpTimeZoneToIsoTimeZoneStr (zone : Int32) (sep : Option Str) (maxlen : ℕ) : Str :=
  if zone = 0 then [90]
  else
    let tz := if zone < 0 then -zone else zone
    snprintf maxlen ((if zone < 0 then 45 else 43) :: zeroPadded 2 (tz / 60).toUInt32.toNat ++
      sep.getD [58] ++ zeroPadded 2 (tz % 60).toUInt32.toNat)

def xpDateTimeToIsoDateTimeStr (f : CFloat F) (dt : XpDateTime F)
    (dateSep datetimeSep timeSep : Option Str) (precision : ℤ) (maxlen : ℕ) : Str :=
  snprintf maxlen (xpDateToIsoDateStr dt.date dateSep 16 ++ datetimeSep.getD [84] ++
    xpTimeToIsoTimeStr f dt.time timeSep precision 16 ++
    xpTimeZoneToIsoTimeZoneStr dt.zone timeSep 16)

/-! ## From text -/

/-- `"%2u%*s%2u"` -/
def zoneFormat : List (Directive F (UInt32 × UInt32)) :=
  [.uint 2 fun n s ↦ (n, s.2), .skipStr, .uint 2 fun n s ↦ (s.1, n)]

/-- The zone is local where there is no text. -/
def isoTimeZoneStrParse (f : CFloat F) (localZone : Int32) : Str → Option Int32
  | [] => some localZone
  | c :: str =>
      if c = 90 then some 0
      else if c = 43 ∨ c = 45 then
        let r := sscanf f.read zoneFormat str (0, 0)
        if 1 ≤ r.1 then
          let zone := (r.2.1 * 60 + r.2.2).toInt32
          some (if c = 45 then -zone else zone)
        else none
      else none

/-- The variables of `isoDateTimeStr_parse`. -/
structure Scanned (F : Type) where
  dt : XpDateTime F
  zone : Str

namespace Scanned

variable (n : UInt32) (x : F) (zone : Str) (s : Scanned F)

def setYear : Scanned F := { s with dt.date.year := n }

def setMonth : Scanned F := { s with dt.date.month := n }

def setDay : Scanned F := { s with dt.date.day := n }

def setHour : Scanned F := { s with dt.time.hour := n }

def setMinute : Scanned F := { s with dt.time.minute := n }

def setSecond : Scanned F := { s with dt.time.second := x }

def setZone : Scanned F := { s with zone := zone }

end Scanned

open Scanned in
/-- The formats differ in what stands between the numbers. -/
def isoFormat (dateSep datetimeSep timeSep : Str) : List (Directive F (Scanned F)) :=
  .uint 4 setYear :: (dateSep.map .lit ++ .uint 2 setMonth :: (dateSep.map .lit ++
    .uint 2 setDay :: (datetimeSep.map .lit ++ .uint 2 setHour :: (timeSep.map .lit ++
    .uint 2 setMinute :: (timeSep.map .lit ++ [.float setSecond, .str 6 setZone])))))

/-- The formats of `isoDateTimeStr_parse`, each with how many variables it has to set. -/
def isoFormats : List (ℕ × List (Directive F (Scanned F))) :=
  [(2, isoFormat [45] [84] [58]), (4, isoFormat [] [84] []), (1, isoFormat [] [] [])]

/-- One format after another, until one has set enough. -/
def scanFirst (f : CFloat F) (str : Str) :
    List (ℕ × List (Directive F (Scanned F))) → Scanned F → Bool × Scanned F
  | [], s => (false, s)
  | (enough, format) :: formats, s =>
      let r := sscanf f.read format str s
      if enough ≤ r.1 then (true, r.2) else scanFirst f str formats r.2

def isoDateTimeStrParse (f : CFloat F) (localZone : Int32) (str : Str) : XpDateTime F :=
  let r := scanFirst f str isoFormats ⟨⟨⟨0, 0, 0⟩, ⟨0, 0, f.zero⟩, 0⟩, []⟩
  match if r.1 then isoTimeZoneStrParse f localZone r.2.zone else none with
  | some zone => { r.2.dt with zone := zone }
  | none => r.2.dt

/-! ## Reading what was written -/

/-- On whole seconds `%f` is exact; behind the number stands nothing that could belong to it. -/
structure CFloat.Exact (f : CFloat F) (whole : ℕ → F) : Prop where
  print : ∀ n < 60, f.print 2 0 (whole n) = zeroPadded 2 n
  read : ∀ n < 60, ∀ rest : Str,
    (∀ c ∈ rest.head?, isdigit c = false ∧ c ∉ ([46, 69, 88, 101, 120] : Str)) →
      f.read (zeroPadded 2 n ++ rest) = some (whole n, rest)

structure XpDate.Valid (date : XpDate) : Prop where
  year : 1 ≤ date.year.toNat ∧ date.year.toNat ≤ 9999
  month : 1 ≤ date.month.toNat ∧ date.month.toNat ≤ 12
  day : 1 ≤ date.day.toNat ∧ date.day.toNat ≤ 31

/-- A date and time in whole seconds, with its zone. -/
structure XpDateTime.Valid (whole : ℕ → F) (dt : XpDateTime F) : Prop where
  date : dt.date.Valid
  hour : dt.time.hour.toNat < 24
  minute : dt.time.minute.toNat < 60
  second : ∃ n < 60, dt.time.second = whole n
  zone : -720 ≤ dt.zone.toInt ∧ dt.zone.toInt ≤ 840

theorem snprintf_of_lt {maxlen : ℕ} {text : Str} (h : text.length < maxlen) :
    snprintf maxlen text = text := List.take_of_length_le (by omega)

theorem length_two {n : ℕ} (h : n < 100) : (zeroPadded 2 n).length = 2 :=
  length_zeroPadded (by decide) h

/-! ### The zone -/

variable {zone : Int32} {sep dateSep datetimeSep timeSep : Str} {f : CFloat F}
  {localZone : Int32}

/-- A separator of at most one character, which is not white space. -/
structure Separator (sep : Str) : Prop where
  length : sep.length ≤ 1
  word : ∀ c ∈ sep, isspace c = false

/-- Hours and minutes of the zone. -/
theorem toNat_div_mod {tz : Int32} (h : 0 ≤ tz.toInt) :
    (tz / 60).toUInt32.toNat = tz.toInt.natAbs / 60 ∧
      (tz % 60).toUInt32.toNat = tz.toInt.natAbs % 60 := by
  have hsixty : (60 : Int32).toInt = 60 := by decide
  have hdiv : (tz / 60).toInt = tz.toInt / 60 := by
    rw [Int32.toInt_div_of_ne_right _ _ (by decide), hsixty, Int.tdiv_eq_ediv_of_nonneg h]
  have hmod : (tz % 60).toInt = tz.toInt % 60 := by
    rw [Int32.toInt_mod, hsixty, Int.tmod_eq_emod_of_nonneg h]
  have hle {x : Int32} (hx : 0 ≤ x.toInt) : x.toUInt32.toNat = x.toInt.toNat := by
    rw [Int32.toNat_toUInt32_of_le (Int32.le_iff_toInt_le.mpr hx), Int32.toNat_toInt]
  rw [hle (by rw [hdiv]; omega), hle (by rw [hmod]; omega), hdiv, hmod]
  omega

/-- The text of a zone that is not UTC. -/
theorem zoneText_eq (hsep : Separator sep) (hne : zone ≠ 0)
    (hzone : -720 ≤ zone.toInt ∧ zone.toInt ≤ 840) :
    xpTimeZoneToIsoTimeZoneStr zone (some sep) 16 =
      (if zone.toInt < 0 then 45 else 43) :: (zeroPadded 2 (zone.toInt.natAbs / 60) ++
        (sep ++ zeroPadded 2 (zone.toInt.natAbs % 60))) := by
  have hneg : (-zone).toInt = -zone.toInt := by
    rw [Int32.toInt_neg, Int.bmod_def]
    split <;> omega
  have hlt : zone < 0 ↔ zone.toInt < 0 := Int32.lt_iff_toInt_lt
  have htz : 0 ≤ (if zone < 0 then -zone else zone).toInt ∧
      (if zone < 0 then -zone else zone).toInt.natAbs = zone.toInt.natAbs := by
    split
    · next hminus =>
      have := hlt.mp hminus
      rw [hneg, Int.natAbs_neg]
      exact ⟨by omega, rfl⟩
    · next hplus => exact ⟨not_lt.mp (mt hlt.mpr hplus), rfl⟩
  rw [xpTimeZoneToIsoTimeZoneStr, if_neg hne]
  dsimp only
  generalize (if zone < 0 then -zone else zone) = tz at htz ⊢
  obtain ⟨hdiv, hmod⟩ := toNat_div_mod htz.1
  rw [hdiv, hmod, htz.2, Option.getD_some, if_congr hlt rfl rfl, List.cons_append, List.cons_append,
    List.append_assoc]
  apply snprintf_of_lt
  have hh : (zeroPadded 2 (zone.toInt.natAbs / 60)).length = 2 := length_two (by omega)
  have hm : (zeroPadded 2 (zone.toInt.natAbs % 60)).length = 2 := length_two (by omega)
  have := hsep.length
  rw [List.length_cons, List.length_append, List.length_append, hh, hm]
  omega

/-- A zone is a word that no number goes on with. -/
theorem zoneText_spec (hsep : Separator sep) (hzone : -720 ≤ zone.toInt ∧ zone.toInt ≤ 840) :
    xpTimeZoneToIsoTimeZoneStr zone (some sep) 16 ≠ [] ∧
      (∀ c ∈ xpTimeZoneToIsoTimeZoneStr zone (some sep) 16, isspace c = false) ∧
      ∀ c ∈ (xpTimeZoneToIsoTimeZoneStr zone (some sep) 16).head?,
        isdigit c = false ∧ c ∉ ([46, 69, 88, 101, 120] : Str) := by
  by_cases hne : zone = 0
  · subst hne
    refine ⟨List.cons_ne_nil 90 [], List.forall_mem_singleton.mpr (by decide), fun c hc ↦ ?_⟩
    obtain rfl : 90 = c := Option.some.inj hc
    exact ⟨rfl, by simp⟩
  · rw [zoneText_eq hsep hne hzone]
    have hsign : ∀ c : UInt8, c = (if zone.toInt < 0 then 45 else 43) →
        isspace c = false ∧ isdigit c = false ∧ c ∉ ([46, 69, 88, 101, 120] : Str) := by
      intro c hc
      split at hc <;> (subst hc; decide)
    refine ⟨List.cons_ne_nil _ _, ?_, ?_⟩
    · intro c hc
      rcases List.mem_cons.mp hc with hc | hc
      · exact (hsign c hc).1
      · rcases List.mem_append.mp hc with hc | hc
        · exact (digit_spec c (digits_zeroPadded _ _ c hc)).1
        · rcases List.mem_append.mp hc with hc | hc
          · exact hsep.word c hc
          · exact (digit_spec c (digits_zeroPadded _ _ c hc)).1
    · intro c hc
      exact (hsign c (Option.some.inj hc).symm).2

/-- The minutes are lost: `%*s` takes the rest of the text. -/
theorem isoTimeZoneStrParse_zoneText (hsep : Separator sep)
    (hzone : -720 ≤ zone.toInt ∧ zone.toInt ≤ 840) :
    ∃ z, isoTimeZoneStrParse f localZone (xpTimeZoneToIsoTimeZoneStr zone (some sep) 16) = some z ∧
      z.toInt = zone.toInt.tdiv 60 * 60 := by
  by_cases hne : zone = 0
  · subst hne
    exact ⟨0, rfl, by decide⟩
  · rw [zoneText_eq hsep hne hzone]
    set h := zone.toInt.natAbs / 60 with hh
    set m := zone.toInt.natAbs % 60 with hm
    have hword : ∀ c ∈ sep ++ zeroPadded 2 m, isspace c = false := by
      intro c hc
      rcases List.mem_append.mp hc with hc | hc
      · exact hsep.word c hc
      · exact (digit_spec c (digits_zeroPadded 2 m c hc)).1
    have hnil : sep ++ zeroPadded 2 m ≠ [] := by
      have hlength := length_two (n := m) (by omega)
      apply List.append_ne_nil_of_right_ne_nil
      exact List.ne_nil_of_length_pos (by omega)
    have hscan : sscanf f.read zoneFormat (zeroPadded 2 h ++ (sep ++ zeroPadded 2 m)) (0, 0) =
        (1, (UInt32.ofNat h, 0)) := by
      rw [zoneFormat, sscanf_uint (by decide) (by omega), sscanf,
        scanWord_self hnil hword le_rfl]
      rfl
    have hhours : (UInt32.ofNat h * 60 + 0).toInt32.toInt = h * 60 := by
      rw [UInt32.add_zero, UInt32.toInt32_mul, Int32.toInt_mul, UInt32.toInt32_ofNat',
        Int32.toInt_ofNat_of_lt (by omega)]
      change ((h : ℤ) * 60).bmod (2 ^ 32) = h * 60
      rw [Int.bmod_def]
      split <;> omega
    have hquot : zone.toInt.tdiv 60 = if zone.toInt < 0 then -(h : ℤ) else h := by
      split
      · next hminus =>
        obtain ⟨k, hk⟩ := Int.exists_eq_neg_ofNat hminus.le
        rw [hh, hk, Int.neg_tdiv, Int.natAbs_neg]
        rfl
      · next hplus =>
        obtain ⟨k, hk⟩ := Int.eq_ofNat_of_zero_le (not_lt.mp hplus)
        rw [hh, hk]
        rfl
    by_cases hminus : zone.toInt < 0
    · refine ⟨-(UInt32.ofNat h * 60 + 0).toInt32, ?_, ?_⟩
      · rw [if_pos hminus, isoTimeZoneStrParse, if_neg (by decide), if_pos (by decide), hscan]
        rfl
      · rw [Int32.toInt_neg, hhours, hquot, if_pos hminus, Int.bmod_def]
        split <;> omega
    · refine ⟨(UInt32.ofNat h * 60 + 0).toInt32, ?_, ?_⟩
      · rw [if_neg hminus, isoTimeZoneStrParse, if_neg (by decide), if_pos (by decide), hscan]
        rfl
      · rw [hhours, hquot, if_neg hminus]

/-! ### The whole text -/

variable {whole : ℕ → F} {dt : XpDateTime F} {s : Scanned F} {n : ℕ}

/-- The fields with the separators between them. -/
def fieldsText (dateSep datetimeSep timeSep : Str) (dt : XpDateTime F) (n : ℕ) (zone : Str) : Str :=
  zeroPadded 4 dt.date.year.toNat ++ (dateSep ++ (zeroPadded 2 dt.date.month.toNat ++ (dateSep ++
    (zeroPadded 2 dt.date.day.toNat ++ (datetimeSep ++ (zeroPadded 2 dt.time.hour.toNat ++
    (timeSep ++ (zeroPadded 2 dt.time.minute.toNat ++ (timeSep ++
    (zeroPadded 2 n ++ zone))))))))))

theorem length_zoneText (hsep : Separator sep) (hzone : -720 ≤ zone.toInt ∧ zone.toInt ≤ 840) :
    (xpTimeZoneToIsoTimeZoneStr zone (some sep) 16).length ≤ 6 := by
  by_cases hne : zone = 0
  · subst hne
    exact (by decide : (1 : ℕ) ≤ 6)
  · have hh : (zeroPadded 2 (zone.toInt.natAbs / 60)).length = 2 := length_two (by omega)
    have hm : (zeroPadded 2 (zone.toInt.natAbs % 60)).length = 2 := length_two (by omega)
    have := hsep.length
    rw [zoneText_eq hsep hne hzone, List.length_cons, List.length_append, List.length_append, hh,
      hm]
    omega

theorem isoText_eq (hf : f.Exact whole) (hdt : dt.Valid whole) (hn : n < 60)
    (hsecond : dt.time.second = whole n) (hdate : dateSep.length ≤ 1)
    (hdatetime : datetimeSep.length ≤ 1) (htime : Separator timeSep) {maxlen : ℕ}
    (hmaxlen : 26 ≤ maxlen) :
    xpDateTimeToIsoDateTimeStr f dt (some dateSep) (some datetimeSep) (some timeSep) 0 maxlen =
      fieldsText dateSep datetimeSep timeSep dt n
        (xpTimeZoneToIsoTimeZoneStr dt.zone (some timeSep) 16) := by
  have hy : (zeroPadded 4 dt.date.year.toNat).length = 4 :=
    length_zeroPadded (by decide) (hdt.date.year.2.trans_lt (by decide))
  have hm : (zeroPadded 2 dt.date.month.toNat).length = 2 :=
    length_two (hdt.date.month.2.trans_lt (by decide))
  have hd : (zeroPadded 2 dt.date.day.toNat).length = 2 :=
    length_two (hdt.date.day.2.trans_lt (by decide))
  have hh : (zeroPadded 2 dt.time.hour.toNat).length = 2 :=
    length_two (hdt.hour.trans (by decide))
  have hmin : (zeroPadded 2 dt.time.minute.toNat).length = 2 :=
    length_two (hdt.minute.trans (by decide))
  have hs : (zeroPadded 2 n).length = 2 := length_two (hn.trans (by decide))
  have hzone := length_zoneText htime hdt.zone
  have htimeSep := htime.length
  have hdateText : xpDateToIsoDateStr dt.date (some dateSep) 16 =
      zeroPadded 4 dt.date.year.toNat ++ dateSep ++ zeroPadded 2 dt.date.month.toNat ++ dateSep ++
        zeroPadded 2 dt.date.day.toNat := by
    apply snprintf_of_lt
    simp only [Option.getD_some, List.length_append, hy, hm, hd]
    omega
  have htimeText : xpTimeToIsoTimeStr f dt.time (some timeSep) 0 16 =
      zeroPadded 2 dt.time.hour.toNat ++ timeSep ++ zeroPadded 2 dt.time.minute.toNat ++ timeSep ++
        zeroPadded 2 n := by
    have hprint : f.print 2 0 dt.time.second = zeroPadded 2 n := by rw [hsecond, hf.print n hn]
    rw [xpTimeToIsoTimeStr, if_neg (by decide), if_neg (by decide), if_pos rfl]
    simp only [Option.getD_some, Int.toNat_zero, hprint]
    apply snprintf_of_lt
    simp only [List.length_append, hh, hmin, hs]
    omega
  rw [xpDateTimeToIsoDateTimeStr, hdateText, htimeText, snprintf_of_lt]
  · simp only [fieldsText, Option.getD_some, List.append_assoc]
  · simp only [Option.getD_some, List.length_append, hy, hm, hd, hh, hmin, hs]
    omega

/-- A separator in a format. -/
@[simp] theorem sscanf_lits (format : List (Directive F (Scanned F))) (rest : Str) :
    sscanf f.read (sep.map .lit ++ format) (sep ++ rest) s = sscanf f.read format rest s := by
  induction sep with
  | nil => rfl
  | cons c sep ih => rw [List.map_cons, List.cons_append, List.cons_append, sscanf_lit_cons, ih]

theorem head_zeroPadded_append {width n : ℕ} (hpos : 0 < width) (h : n < 10 ^ width) (rest : Str) :
    ∀ c ∈ (zeroPadded width n ++ rest).head?, 48 ≤ c ∧ c ≤ 57 := by
  have hlength := length_zeroPadded hpos h
  have hdigits := digits_zeroPadded width n
  intro c hc
  cases hd : zeroPadded width n with
  | nil =>
      rw [hd, List.length_nil] at hlength
      omega
  | cons d t =>
      rw [hd] at hc hdigits
      obtain rfl : d = c := Option.some.inj hc
      exact hdigits d List.mem_cons_self

/-- The format with the separators of the text sets all variables. -/
theorem sscanf_isoFormat (hf : f.Exact whole) (hdt : dt.Valid whole) (hn : n < 60)
    (hsecond : dt.time.second = whole n) (htime : Separator timeSep) :
    sscanf f.read (isoFormat dateSep datetimeSep timeSep)
        (fieldsText dateSep datetimeSep timeSep dt n
          (xpTimeZoneToIsoTimeZoneStr dt.zone (some timeSep) 16)) s =
      (7, ⟨{ dt with zone := s.dt.zone },
        xpTimeZoneToIsoTimeZoneStr dt.zone (some timeSep) 16⟩) := by
  have hlength := length_zoneText htime hdt.zone
  obtain ⟨hne, hword, hhead⟩ := zoneText_spec htime hdt.zone
  generalize xpTimeZoneToIsoTimeZoneStr dt.zone (some timeSep) 16 = zone at hlength hne hword hhead
  have hfloat : f.read ((zeroPadded 2 n ++ zone).dropWhile isspace) = some (whole n, zone) := by
    rw [dropWhile_of_head fun c hc ↦ (digit_spec c (head_zeroPadded_append (by decide)
      (hn.trans (by decide)) zone c hc)).1]
    exact hf.read n hn zone hhead
  have htwo (x : UInt32) (h : x.toNat < 100) (format : List (Directive F (Scanned F))) (rest : Str)
      (set : UInt32 → Scanned F → Scanned F) (s : Scanned F) :
      sscanf f.read (.uint 2 set :: format) (zeroPadded 2 x.toNat ++ rest) s =
        (sscanf f.read format rest (set x s)).map (· + 1) id := by
    rw [sscanf_uint (by decide) h, UInt32.ofNat_toNat]
  have hyear := hdt.date.year.2
  rw [isoFormat, fieldsText, sscanf_uint (by decide) (by omega), UInt32.ofNat_toNat, sscanf_lits,
    htwo _ (by have := hdt.date.month; omega), sscanf_lits,
    htwo _ (by have := hdt.date.day; omega), sscanf_lits,
    htwo _ (by have := hdt.hour; omega), sscanf_lits,
    htwo _ (by have := hdt.minute; omega), sscanf_lits, sscanf, hfloat]
  simp only [sscanf, scanWord_self hne hword hlength]
  rw [← hsecond]
  rfl

/-! ## The round trip -/

/-- What `isoDateTimeStr_parse` returns where one of the formats fits. -/
theorem isoDateTimeStrParse_of_scan {str zoneStr : Str}
    (hscan : scanFirst f str isoFormats ⟨⟨⟨0, 0, 0⟩, ⟨0, 0, f.zero⟩, 0⟩, []⟩ =
      (true, ⟨{ dt with zone := 0 }, zoneStr⟩)) {z : Int32}
    (hzone : isoTimeZoneStrParse f localZone zoneStr = some z) :
    isoDateTimeStrParse f localZone str = { dt with zone := z } := by
  rw [isoDateTimeStrParse, hscan]
  simp only [if_true, hzone]

/-- The first format reads the default separators. -/
theorem scanFirst_default (hf : f.Exact whole) (hdt : dt.Valid whole) (hn : n < 60)
    (hsecond : dt.time.second = whole n) :
    scanFirst f (fieldsText [45] [84] [58] dt n
        (xpTimeZoneToIsoTimeZoneStr dt.zone (some [58]) 16)) isoFormats s =
      (true, ⟨{ dt with zone := s.dt.zone },
        xpTimeZoneToIsoTimeZoneStr dt.zone (some [58]) 16⟩) := by
  have hcolon : Separator [58] := ⟨le_rfl, by decide⟩
  rw [isoFormats, scanFirst, sscanf_isoFormat hf hdt hn hsecond hcolon]
  rfl

/-- Without separators the first format stops behind the year, the second one behind the day. -/
theorem scanFirst_empty (hf : f.Exact whole) (hdt : dt.Valid whole) (hn : n < 60)
    (hsecond : dt.time.second = whole n) :
    scanFirst f (fieldsText [] [] [] dt n (xpTimeZoneToIsoTimeZoneStr dt.zone (some []) 16))
        isoFormats s =
      (true, ⟨{ dt with zone := s.dt.zone }, xpTimeZoneToIsoTimeZoneStr dt.zone (some []) 16⟩) := by
  have hnone : Separator [] := ⟨by decide, by decide⟩
  have hyear : dt.date.year.toNat < 10 ^ 4 := hdt.date.year.2.trans_lt (by decide)
  have hmonth : dt.date.month.toNat < 10 ^ 2 := hdt.date.month.2.trans_lt (by decide)
  have hday : dt.date.day.toNat < 10 ^ 2 := hdt.date.day.2.trans_lt (by decide)
  have hhour : dt.time.hour.toNat < 10 ^ 2 := hdt.hour.trans (by decide)
  have hfirst (s : Scanned F) (zone : Str) : sscanf f.read (isoFormat [45] [84] [58])
      (fieldsText [] [] [] dt n zone) s = (1, s.setYear dt.date.year) := by
    rw [isoFormat, fieldsText, sscanf_uint (by decide) hyear, UInt32.ofNat_toNat, List.nil_append]
    refine congrArg (Prod.map (· + 1) id) (sscanf_lit_of_ne fun c hc ↦ ?_)
    exact (digit_spec c (head_zeroPadded_append (by decide) hmonth _ c hc)).2.2.1
  have hsecondFormat (s : Scanned F) (zone : Str) : sscanf f.read (isoFormat [] [84] [])
      (fieldsText [] [] [] dt n zone) s =
        (3, ((s.setYear dt.date.year).setMonth dt.date.month).setDay dt.date.day) := by
    simp only [isoFormat, fieldsText, List.map_nil, List.nil_append]
    rw [sscanf_uint (by decide) hyear, sscanf_uint (by decide) hmonth,
      sscanf_uint (by decide) hday, UInt32.ofNat_toNat, UInt32.ofNat_toNat, UInt32.ofNat_toNat]
    have hletter : ∀ c : UInt8, 48 ≤ c ∧ c ≤ 57 → c ≠ 84 :=
      Words.forall_uint8 (by decide +kernel)
    refine congrArg (Prod.map (· + 1) id) (congrArg (Prod.map (· + 1) id)
      (congrArg (Prod.map (· + 1) id) (sscanf_lit_of_ne fun c hc ↦ ?_)))
    exact hletter c (head_zeroPadded_append (by decide) hhour _ c hc)
  rw [isoFormats, scanFirst, hfirst]
  simp only [(by decide : ¬ 2 ≤ 1), if_false]
  rw [scanFirst, hsecondFormat]
  simp only [(by decide : ¬ 4 ≤ 3), if_false]
  rw [scanFirst, sscanf_isoFormat hf hdt hn hsecond hnone]
  rfl

/-- The round trip keeps the zone exactly when it is a number of hours. -/
theorem isoDateTimeStrParse_iff (f : CFloat F) (whole : ℕ → F) (hf : f.Exact whole)
    (localZone : Int32) (dt : XpDateTime F) (hdt : dt.Valid whole) (maxlen : ℕ)
    (hmaxlen : 26 ≤ maxlen) :
    (isoDateTimeStrParse f localZone (xpDateTimeToIsoDateTimeStr f dt none none none 0 maxlen) =
        dt ↔ dt.zone.toInt % 60 = 0) ∧
      (isoDateTimeStrParse f localZone
          (xpDateTimeToIsoDateTimeStr f dt (some []) (some []) (some []) 0 maxlen) =
        dt ↔ dt.zone.toInt % 60 = 0) := by
  obtain ⟨n, hn, hsecond⟩ := hdt.second
  have hcolon : Separator [58] := ⟨le_rfl, by decide⟩
  have hempty : Separator [] := ⟨by decide, by decide⟩
  have hkept {str : Str} {z : Int32} (hz : z.toInt = dt.zone.toInt.tdiv 60 * 60)
      (hparse : isoDateTimeStrParse f localZone str = { dt with zone := z }) :
      isoDateTimeStrParse f localZone str = dt ↔ dt.zone.toInt % 60 = 0 := by
    rw [hparse]
    have hdvd : dt.zone.toInt.tdiv 60 * 60 = dt.zone.toInt ↔ dt.zone.toInt % 60 = 0 := by
      rw [← Int.dvd_iff_emod_eq_zero]
      exact ⟨fun h ↦ h ▸ Int.dvd_mul_left _ _, Int.tdiv_mul_cancel⟩
    rw [← hdvd, ← hz, Int32.toInt_inj]
    exact ⟨fun h ↦ congrArg XpDateTime.zone h, fun h ↦ h ▸ rfl⟩
  have hnone : ([] : Str).length ≤ 1 := Nat.zero_le 1
  have hdash : ([45] : Str).length ≤ 1 := le_rfl
  have hletter : ([84] : Str).length ≤ 1 := le_rfl
  constructor
  · have htext := isoText_eq hf hdt hn hsecond hdash hletter hcolon hmaxlen
    change xpDateTimeToIsoDateTimeStr f dt none none none 0 maxlen = _ at htext
    obtain ⟨z, hparse, hz⟩ :
        ∃ z, isoTimeZoneStrParse f localZone (xpTimeZoneToIsoTimeZoneStr dt.zone (some [58]) 16) =
          some z ∧ z.toInt = dt.zone.toInt.tdiv 60 * 60 :=
      isoTimeZoneStrParse_zoneText hcolon hdt.zone
    rw [htext]
    exact hkept hz (isoDateTimeStrParse_of_scan (scanFirst_default hf hdt hn hsecond) hparse)
  · obtain ⟨z, hparse, hz⟩ :
        ∃ z, isoTimeZoneStrParse f localZone (xpTimeZoneToIsoTimeZoneStr dt.zone (some []) 16) =
          some z ∧ z.toInt = dt.zone.toInt.tdiv 60 * 60 :=
      isoTimeZoneStrParse_zoneText hempty hdt.zone
    rw [isoText_eq hf hdt hn hsecond hnone hnone hempty hmaxlen]
    exact hkept hz (isoDateTimeStrParse_of_scan (scanFirst_empty hf hdt hn hsecond) hparse)

/-- Whole seconds, printed and read as numbers. -/
def wholeSeconds : CFloat ℕ where
  zero := 0
  print width _ n := zeroPadded width n
  read text :=
    let digits := text.takeWhile isdigit
    if digits = [] then none else some (Smblib.digitsValue digits, text.drop digits.length)

theorem wholeSeconds_exact : wholeSeconds.Exact id where
  print _ _ := rfl
  read n hn rest hrest := by
    have hlength := length_two (n := n) (by omega)
    have hnil : zeroPadded 2 n ≠ [] := List.ne_nil_of_length_pos (by omega)
    have htake : (zeroPadded 2 n ++ rest).takeWhile isdigit = zeroPadded 2 n := by
      rw [List.takeWhile_append_of_pos fun c hc ↦
        (digit_spec c (digits_zeroPadded 2 n c hc)).2.1]
      cases rest with
      | nil => rw [List.takeWhile_nil, List.append_nil]
      | cons c rest =>
          rw [List.takeWhile_cons_of_neg (by simp [(hrest c rfl).1]), List.append_nil]
    simp only [wholeSeconds, htake, hnil, if_false, digitsValue_zeroPadded, List.drop_left, id]

/-- Noon of a leap day. -/
def leapDay (zone : Int32) : XpDateTime ℕ := ⟨⟨2020, 2, 29⟩, ⟨12, 0, 5⟩, zone⟩

theorem leapDay_valid {zone : Int32} (h : -720 ≤ zone.toInt ∧ zone.toInt ≤ 840) :
    (leapDay zone).Valid id :=
  ⟨⟨(by decide : 1 ≤ (2020 : UInt32).toNat ∧ (2020 : UInt32).toNat ≤ 9999),
    (by decide : 1 ≤ (2 : UInt32).toNat ∧ (2 : UInt32).toNat ≤ 12),
    (by decide : 1 ≤ (29 : UInt32).toNat ∧ (29 : UInt32).toNat ≤ 31)⟩,
    (by decide : (12 : UInt32).toNat < 24), (by decide : (0 : UInt32).toNat < 60),
    ⟨5, by decide, rfl⟩, h⟩

theorem isoDateTimeStrParse_hours :
    (isoDateTimeStrParse wholeSeconds 0
        (xpDateTimeToIsoDateTimeStr wholeSeconds (leapDay 300) none none none 0 64) =
      leapDay 300 ↔ (leapDay 300).zone.toInt % 60 = 0) ∧
    (isoDateTimeStrParse wholeSeconds 0
        (xpDateTimeToIsoDateTimeStr wholeSeconds (leapDay 300) (some []) (some []) (some []) 0 64) =
      leapDay 300 ↔ (leapDay 300).zone.toInt % 60 = 0) :=
  isoDateTimeStrParse_iff wholeSeconds id wholeSeconds_exact 0 (leapDay 300)
    (leapDay_valid (by decide)) 64 (by decide)

/-- Half an hour of the zone is lost. -/
theorem not_isoDateTimeStrParse : (leapDay 330).Valid id ∧
    isoDateTimeStrParse wholeSeconds 0
        (xpDateTimeToIsoDateTimeStr wholeSeconds (leapDay 330) none none none 0 64) ≠
      leapDay 330 :=
  ⟨leapDay_valid (by decide), by decide +kernel⟩

end Synchronet.Xpdev
