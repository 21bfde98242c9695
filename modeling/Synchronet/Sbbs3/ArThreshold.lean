import Mathlib.Data.UInt
import Synchronet.Sbbs3.ArStr
import Synchronet.Sbbs3.UserNumbers

/-!
# Thresholds in access requirements (ars.c, chk_ar.cpp)

A requirement that is a keyword and a number compares a value with what `arstr` keeps of the
number: a byte of it, or 16 bits that are read as a `short`.
-/

namespace Synchronet.Sbbs3

open Xpdev (Str strnicmp isdigit)
open LittleEndian

/-! ## The compiled requirement -/

/-- The keywords whose number is the least value that is admitted. -/
def thresholdCodes : List UInt8 :=
  [arLevel, arAge, arPcr, arUdr, arUdfr, arNode, arTleft, arTused, arDay, arBps, arCredit, arUser,
    arGroup, arSub, arLib, arDir, arExpire, arLaston, arLogons, arMainCmds, arFileCmds, arUls,
    arUlk, arUlm, arDls, arDlk, arDlm]

def thresholds : List (Str × UInt8) := arKeywords.filter fun k ↦ k.2 ∈ thresholdCodes

/-- A keyword, a space and a number. -/
def requirement (keyword : Str) (n : ℕ) : Str := keyword ++ 32 :: ultoa n 10

variable {cfg : ArConfig} {st : ArState} {c : UInt8} {w s t word : Str} {n m : ℕ}

/-- What is behind the space does not matter to a word without one. -/
theorem strnicmp_space (hw : 32 ∉ word) (t : Str) :
    strnicmp (w ++ 32 :: t) word = strnicmp (w ++ [32]) word := by
  by_cases hlen : word.length ≤ w.length + 1
  · have htake : ∀ u : Str, (w ++ 32 :: u).take word.length = (w ++ [32]).take word.length := by
      intro u
      rw [show w ++ 32 :: u = (w ++ [32]) ++ u by simp, List.take_append_of_le_length (by simpa)]
    rw [strnicmp, strnicmp, htake]
  · have hget : ∀ u : Str, ((w ++ 32 :: u).take word.length)[w.length]? = some 32 := by
      intro u
      rw [List.getElem?_take_of_lt (by omega)]
      simp
    have hfalse : ∀ u : Str, strnicmp (w ++ 32 :: u) word = false := by
      intro u
      rw [strnicmp, beq_eq_false_iff_ne]
      intro heq
      have hmap := congrArg (fun l ↦ l[w.length]?) heq
      simp only [Smblib.strlwr, List.getElem?_map, hget, Option.map_some] at hmap
      obtain ⟨d, hd, hlower⟩ := Option.map_eq_some_iff.mp hmap.symm
      have hspace : ∀ d : UInt8, (if 65 ≤ d ∧ d ≤ 90 then d + 32 else d) = 32 → d = 32 := fun d ↦
        Words.forall_uint8 (p := fun d ↦ (if 65 ≤ d ∧ d ≤ 90 then d + 32 else d) = 32 → d = 32)
          (by decide +kernel) d
      exact hw (hspace d hlower ▸ List.mem_of_getElem? hd)
    rw [hfalse, hfalse]

theorem isWord_space (hw : 32 ∉ word) (t : Str) :
    isWord (w ++ 32 :: t) word = isWord (w ++ [32]) word := by
  have htake : ∀ u : Str, (w ++ 32 :: u).takeWhile isalpha = w.takeWhile isalpha := by
    intro u
    induction w with
    | nil => rfl
    | cons c w ih =>
        rw [List.cons_append, List.takeWhile_cons, List.takeWhile_cons]
        split
        · rw [ih]
        · rfl
  rw [isWord, isWord, strnicmp_space hw, htake, htake]

/-- What the rounds at a keyword and at a space find, which does not depend on the number. -/
def Recognized (k : Str × UInt8) : Prop :=
  (∀ c ∈ k.1.head?, c ≠ 32 ∧ c ≠ 40 ∧ c ≠ 41 ∧ c ≠ 124 ∧ c ≠ 33 ∧ c ≠ 61 ∧ c ≠ 38 ∧ c ≠ 36 ∧
    isalpha c = true) ∧ k.1 ≠ [] ∧
  (∀ word ∈ [[79, 82], [65, 78, 68], [78, 79, 84], [69, 81, 85, 65, 76],
    [69, 81, 85, 65, 76, 83]], isWord (k.1 ++ [32]) word = false) ∧
  arKeyword (k.1 ++ [32]) = some (k.1.length, k.2) ∧ arBoolean k.2 = false ∧
  arStringArg k.2 = false ∧ k.2 ≠ arFlag1 ∧ k.2 ≠ arTime

instance (k : Str × UInt8) : Decidable (Recognized k) :=
  inferInstanceAs (Decidable (_ ∧ _ ∧ _ ∧ _ ∧ _ ∧ _ ∧ _ ∧ _))

theorem recognized : ∀ k ∈ thresholds, Recognized k := by decide +kernel

theorem noSpace : ∀ k ∈ arKeywords, 32 ∉ k.1 := by decide +kernel

theorem find?_congr {α : Type} {p q : α → Bool} {l : List α} (h : ∀ a ∈ l, p a = q a) :
    l.find? p = l.find? q := by
  induction l with
  | nil => rfl
  | cons a l ih =>
      obtain ⟨ha, hl⟩ := List.forall_mem_cons.mp h
      rw [List.find?_cons, List.find?_cons, ha, ih hl]

theorem arKeyword_space (t : Str) : arKeyword (w ++ 32 :: t) = arKeyword (w ++ [32]) := by
  have hfind : arKeywords.find? (fun k ↦ strnicmp (w ++ 32 :: t) k.1) =
      arKeywords.find? fun k ↦ strnicmp (w ++ [32]) k.1 :=
    find?_congr fun k hk ↦ strnicmp_space (noSpace k hk) t
  rw [arKeyword, arKeyword, hfind]

/-- The round at the keyword. -/
theorem arRound_keyword {k : Str × UInt8} (hk : Recognized k) (h : k.1 = c :: w) (t : Str) :
    arRound cfg {} c (w ++ 32 :: t) =
      some (32 :: t, { artype := some k.2, argExpected := true }) := by
  obtain ⟨hfirst, -, hwords, hkeyword, hbool, -⟩ := hk
  obtain ⟨h32, h40, h41, h124, h33, h61, h38, h36, halpha⟩ := hfirst c (by simp [h])
  have hword : ∀ word ∈ [[79, 82], [65, 78, 68], [78, 79, 84], [69, 81, 85, 65, 76],
      [69, 81, 85, 65, 76, 83]], isWord (c :: (w ++ 32 :: t)) word = false := by
    intro word hmem
    have hspace : ∀ word ∈ ([[79, 82], [65, 78, 68], [78, 79, 84], [69, 81, 85, 65, 76],
      [69, 81, 85, 65, 76, 83]] : List Str), 32 ∉ word := by decide
    rw [← List.cons_append, ← h, isWord_space (hspace word hmem)]
    exact hwords word hmem
  have hfound : arKeyword (c :: (w ++ 32 :: t)) = some (k.1.length, k.2) := by
    rw [← List.cons_append, ← h, arKeyword_space, hkeyword]
  simp only [List.forall_mem_cons, List.not_mem_nil, false_implies, implies_true,
    and_true] at hword
  obtain ⟨hor, hand, hnot, hequal, hequals⟩ := hword
  have hdrop : (w ++ 32 :: t).drop (k.1.length - 1) = 32 :: t := by
    rw [h, List.length_cons, Nat.add_sub_cancel, List.drop_left]
  simp [arRound, arWordRound, arKeywordRound, ArState.keyword, h32, h40, h41, h124, h33, h61, h38,
    h36, halpha, hor, hand, hnot, hequal, hequals, hfound, hbool, hdrop]

/-- A digit is none of the symbols and starts no word. -/
theorem digit_spec (h : isdigit c = true) :
    c ≠ 32 ∧ c ≠ 40 ∧ c ≠ 41 ∧ c ≠ 124 ∧ c ≠ 33 ∧ c ≠ 61 ∧ c ≠ 38 ∧ c ≠ 36 ∧ isalpha c = false :=
  Words.forall_uint8 (p := fun c ↦ isdigit c = true → c ≠ 32 ∧ c ≠ 40 ∧ c ≠ 41 ∧ c ≠ 124 ∧
    c ≠ 33 ∧ c ≠ 61 ∧ c ≠ 38 ∧ c ≠ 36 ∧ isalpha c = false) (by decide +kernel) c h

theorem isWord_digit (h : isalpha c = false) (hw : word ≠ []) : isWord (c :: s) word = false := by
  have hlen : word.length ≠ 0 := by simpa using hw
  rw [isWord, List.takeWhile_cons_of_neg (by simp [h])]
  simp [Ne.symm hlen]

/-- The round at a number. -/
theorem arRound_number {k : Str × UInt8} (hk : Recognized k) (hc : isdigit c = true)
    {bytes : List UInt8} (hbytes : numberBytes k.2 (atou (c :: s)) = some bytes)
    (hsize : bytes.length ≤ 2) :
    arRound cfg { artype := some k.2, argExpected := true } c s =
      some (s.dropWhile isdigit, { ar := k.2 :: bytes, artype := some k.2 }) := by
  obtain ⟨-, -, -, -, -, hstring, hflag, htime⟩ := hk
  obtain ⟨h32, h40, h41, h124, h33, h61, h38, h36, halpha⟩ := digit_spec hc
  have hword : ∀ word : Str, word ≠ [] → isWord (c :: s) word = false :=
    fun word hne ↦ isWord_digit halpha hne
  have hroom : 1 + bytes.length ≤ 1024 := by omega
  simp [arRound, arWordRound, arKeywordRound, arOperator, ArState.putNot, ArState.putEqual,
    ArState.put, ArState.putArg, argType, arArgument, h32, h40, h41, h124, h33, h61, h38, h36,
    hword, hstring, hflag, htime, hc, hbytes, sizeofAr]
  omega

/-- The number of bytes of an operand. -/
def operandLength (artype : UInt8) : ℕ := if arOperand artype = .byte then 1 else 2

theorem exists_numberBytes {k : Str × UInt8} (hk : k ∈ thresholds) (n : UInt32) :
    ∃ bytes, numberBytes k.2 n = some bytes ∧ bytes.length = operandLength k.2 := by
  have hcode : k.2 ∈ thresholdCodes := by simpa using (List.mem_filter.mp hk).2
  have hall : ∀ code ∈ thresholdCodes, ∃ bytes, numberBytes code n = some bytes ∧
      bytes.length = operandLength code := by
    simp only [thresholdCodes, List.forall_mem_cons, List.not_mem_nil, false_implies,
      implies_true, and_true]
    refine ⟨?_, ?_, ?_, ?_, ?_, ?_, ?_, ?_, ?_, ?_, ?_, ?_, ?_, ?_, ?_, ?_, ?_, ?_, ?_, ?_, ?_, ?_,
      ?_, ?_, ?_, ?_, ?_⟩ <;> exact ⟨_, rfl, rfl⟩
  exact hall k.2 hcode

theorem atou_ultoa (n : ℕ) : atou (ultoa n 10) = UInt32.ofNat n := by
  rw [atou, atoi_ultoa]
  apply UInt32.toNat_inj.mp
  rw [UInt32.ofInt, UInt32.toNat_ofNat', UInt32.toNat_ofNat']
  norm_cast
  omega

/-- A keyword, the operand and five zeros. -/
theorem arstr_requirement (cfg : ArConfig) {k : Str × UInt8} (hk : k ∈ thresholds) (n : ℕ)
    {bytes : List UInt8} (hbytes : numberBytes k.2 (UInt32.ofNat n) = some bytes) :
    arstr cfg (requirement k.1 n) =
      some (bytes.length + 2, k.2 :: bytes ++ List.replicate 5 0) := by
  have hrec := recognized k hk
  have hsize : bytes.length ≤ 2 := by
    obtain ⟨bytes', hbytes', hlen⟩ := exists_numberBytes hk (UInt32.ofNat n)
    obtain rfl := Option.some.inj (hbytes.symm.trans hbytes')
    rw [hlen, operandLength]
    split <;> decide
  obtain ⟨c, w, hw⟩ := List.exists_cons_of_ne_nil hrec.2.1
  obtain ⟨d, digits, hdigits⟩ := List.exists_cons_of_ne_nil (ultoa_ne_nil n 10)
  have hall : ∀ d ∈ ultoa n 10, isdigit d = true :=
    forall_mem_ultoa (by decide) (by decide +kernel) n
  rw [hdigits, List.forall_mem_cons] at hall
  have hrest : digits.dropWhile isdigit = [] := List.dropWhile_eq_nil_iff.mpr hall.2
  rw [← atou_ultoa, hdigits] at hbytes
  have hkeyword : arRound cfg {} c (w ++ 32 :: ultoa n 10) =
      some (32 :: ultoa n 10, { artype := some k.2, argExpected := true }) :=
    arRound_keyword hrec hw (ultoa n 10)
  have hnumber : arRound cfg { artype := some k.2, argExpected := true } d digits =
      some (digits.dropWhile isdigit, { ar := k.2 :: bytes, artype := some k.2 }) :=
    arRound_number hrec hall.1 hbytes hsize
  have hspace : arRound cfg { artype := some k.2, argExpected := true } 32 (d :: digits) =
      some (d :: digits, { artype := some k.2, argExpected := true }) := rfl
  have hloop : arstrLoop cfg {} (requirement k.1 n) =
      some { ar := k.2 :: bytes, artype := some k.2 } := by
    rw [requirement, hw, List.cons_append, arstrLoop, hkeyword]
    simp only []
    rw [hdigits, arstrLoop, hspace]
    simp only []
    rw [arstrLoop, hnumber]
    simp only [hrest]
    rw [arstrLoop]
  have hput : ({ ar := k.2 :: bytes, artype := some k.2 } : ArState).put [arNull] =
      some { ar := k.2 :: bytes ++ [arNull], artype := some k.2 } := by
    apply if_pos
    simp only [List.length_cons, List.length_nil, sizeofAr]
    omega
  simp [arstr, hloop, hput, arNull]

/-! ## The comparison -/

/-- 16 bits as a `short` and then as an `uint`. -/
def signed16 (n : ℕ) : ℕ := if n % 2 ^ 16 < 2 ^ 15 then n % 2 ^ 16 else 2 ^ 32 - 2 ^ 16 + n % 2 ^ 16

/-- What `ar_exp` compares a value with, for the number in a requirement. -/
def comparedWith (artype : UInt8) (n : ℕ) : ℕ :=
  if artype = arDay then min 6 (n % 2 ^ 32)
  else if arOperand artype = .byte then n % 2 ^ 8
  else if artype = arBps then
    signed16 (if n % 2 ^ 32 < 300 then 100 * (n % 2 ^ 32) else n % 2 ^ 32)
  else if artype ∈ [arGroup, arLib, arDir, arSub] then signed16 (n % 2 ^ 32 - 1)
  else signed16 n

theorem toNat_signed (v : UInt16) :
    v.toInt16.toInt32.toUInt32.toNat =
      if v.toNat < 2 ^ 15 then v.toNat else 2 ^ 32 - 2 ^ 16 + v.toNat := by
  have hbits : v.toInt16.toInt32.toUInt32.toNat = (v.toBitVec.signExtend 32).toNat := rfl
  have hlt := v.toNat_lt
  rw [hbits, BitVec.toNat_signExtend, BitVec.msb_eq_decide]
  simp only [BitVec.toNat_setWidth, UInt16.toNat_toBitVec]
  split <;> split <;> simp_all <;> omega

theorem arShort_shortBytes (x : UInt32) (t : List UInt8) :
    Session.arShort (shortBytes x ++ t) = UInt32.ofNat (signed16 x.toNat) := by
  have hle : ofLe [(shortBytes x ++ t).headD 0, (shortBytes x ++ t).tail.headD 0] =
      x.toNat % 2 ^ 16 := by
    simp [shortBytes, le, ofLe]
    omega
  apply UInt32.toNat_inj.mp
  rw [Session.arShort, hle, toNat_signed, signed16,
    UInt16.toNat_ofNat', Nat.mod_mod]
  split
  · rw [Words.toNat_ofNat_uint32 (by omega)]
  · rw [Words.toNat_ofNat_uint32 (by omega)]

/-- The result for a value of the operand. -/
def Session.admits (s : Session) (artype : UInt8) (i : ℕ) : Bool :=
  (if arOperand artype = .byte then s.byteTest (s.moment 0) artype false (UInt8.ofNat i)
    else s.shortTest (s.moment 0) artype false (UInt32.ofNat i)).getD false

/-- The number that `arstr` keeps a byte of, or 16 bits. -/
def keptNumber (artype : UInt8) (n : UInt32) : UInt32 :=
  if artype = arDay then if 6 < n then 6 else n
  else if artype = arBps then if n < 300 then n * 100 else n
  else if artype ∈ [arGroup, arLib, arDir, arSub] then if n ≠ 0 then n - 1 else n
  else n

theorem numberBytes_eq {artype : UInt8} (hcode : artype ∈ thresholdCodes) (n : UInt32) :
    numberBytes artype n =
      some (if arOperand artype = .byte then [(keptNumber artype n).toUInt8]
        else shortBytes (keptNumber artype n)) := by
  simp only [thresholdCodes, List.mem_cons, List.not_mem_nil, or_false] at hcode
  rcases hcode with rfl | rfl | rfl | rfl | rfl | rfl | rfl | rfl | rfl | rfl | rfl | rfl | rfl |
    rfl | rfl | rfl | rfl | rfl | rfl | rfl | rfl | rfl | rfl | rfl | rfl | rfl | rfl <;> rfl

theorem operand_cases {artype : UInt8} (hcode : artype ∈ thresholdCodes) :
    arOperand artype = .byte ∨
      arOperand artype = .short ∧ artype ≠ arDay := by
  have hall : ∀ code ∈ thresholdCodes, arOperand code = .byte ∨
      arOperand code = .short ∧ code ≠ arDay := by decide
  exact hall artype hcode

theorem byte_notMem {artype : UInt8} (hcode : artype ∈ thresholdCodes)
    (h : arOperand artype = .byte) :
    artype ≠ arBps ∧ artype ∉ [arGroup, arLib, arDir, arSub] := by
  have hall : ∀ code ∈ thresholdCodes, arOperand code = .byte →
      code ≠ arBps ∧ code ∉ [arGroup, arLib, arDir, arSub] := by decide
  exact hall artype hcode h

theorem toNat_ofNat_mod (n : ℕ) : (UInt32.ofNat n).toNat = n % 2 ^ 32 := UInt32.toNat_ofNat'

/-- What is read back is what the value is compared with. -/
theorem keptNumber_byte {artype : UInt8} (hcode : artype ∈ thresholdCodes)
    (h : arOperand artype = .byte) (n : ℕ) :
    (keptNumber artype (UInt32.ofNat n)).toUInt8 = UInt8.ofNat (comparedWith artype n) := by
  obtain ⟨hbps, harea⟩ := byte_notMem hcode h
  have hword := toNat_ofNat_mod n
  rw [keptNumber, comparedWith, if_neg hbps, if_neg harea, if_pos h]
  apply UInt8.toNat_inj.mp
  rw [UInt32.toNat_toUInt8, UInt8.toNat_ofNat']
  split
  · have hlt : 6 < UInt32.ofNat n ↔ 6 < n % 2 ^ 32 := by
      rw [UInt32.lt_iff_toNat_lt, hword]
      rfl
    simp only [hlt]
    split
    · rw [Nat.min_eq_left (by omega)]
      rfl
    · rw [Nat.min_eq_right (by omega), hword]
  · rw [hword]
    omega

theorem keptNumber_short {artype : UInt8} (h : arOperand artype = .short) (hday : artype ≠ arDay)
    (n : ℕ) : signed16 (keptNumber artype (UInt32.ofNat n)).toNat = comparedWith artype n := by
  have hword := toNat_ofNat_mod n
  have hne : arOperand artype ≠ .byte := by simp [h]
  rw [keptNumber, comparedWith, if_neg hday, if_neg hday, if_neg hne]
  split
  · have hlt : UInt32.ofNat n < 300 ↔ n % 2 ^ 32 < 300 := by
      rw [UInt32.lt_iff_toNat_lt, hword]
      rfl
    simp only [hlt]
    split
    · next hsmall =>
      rw [UInt32.toNat_mul, hword, show (100 : UInt32).toNat = 100 from rfl,
        Nat.mod_eq_of_lt (by omega), Nat.mul_comm]
    · rw [hword]
  · split
    · have hzero : UInt32.ofNat n ≠ 0 ↔ n % 2 ^ 32 ≠ 0 := by
        rw [Ne, ← UInt32.toNat_inj, hword]
        rfl
      simp only [hzero]
      split
      · next hpos =>
        have hle : (1 : UInt32) ≤ UInt32.ofNat n := by
          rw [UInt32.le_iff_toNat_le, hword, show (1 : UInt32).toNat = 1 from rfl]
          omega
        rw [UInt32.toNat_sub_of_le _ _ hle, hword]
        rfl
      · next hnot =>
        rw [hword]
        congr 1
        omega
    · rw [hword, signed16, signed16, Nat.mod_mod_of_dvd _ (by decide)]

/-- `ar_exp` has a case for every keyword. -/
theorem arTest_ne_none (s : Session) {artype : UInt8} (hcode : artype ∈ thresholdCodes)
    (p : List UInt8) : s.arTest 0 artype false p ≠ none := by
  simp only [thresholdCodes, List.mem_cons, List.not_mem_nil, or_false] at hcode
  rcases hcode with rfl | rfl | rfl | rfl | rfl | rfl | rfl | rfl | rfl | rfl | rfl | rfl | rfl |
    rfl | rfl | rfl | rfl | rfl | rfl | rfl | rfl | rfl | rfl | rfl | rfl | rfl | rfl <;>
    exact Option.some_ne_none _

/-- What `ar_exp` makes of an operand behind the code of a keyword. -/
theorem arTest_kept (s : Session) {artype : UInt8} (hcode : artype ∈ thresholdCodes)
    {bytes : List UInt8} (hbytes : numberBytes artype (UInt32.ofNat n) = some bytes)
    (rest : List UInt8) :
    s.arTest 0 artype false (bytes ++ rest) = some (s.admits artype (comparedWith artype n)) := by
  have hsome := arTest_ne_none s hcode (bytes ++ rest)
  rw [numberBytes_eq hcode] at hbytes
  obtain rfl := Option.some.inj hbytes
  rw [← Option.getD_of_ne_none hsome false]
  rcases operand_cases hcode with hop | ⟨hop, hday⟩
  · simp only [Session.arTest, Session.admits, hop, if_true, List.cons_append, List.nil_append,
      List.headD_cons, keptNumber_byte hcode hop]
  · have hne : (ArOperand.short = ArOperand.byte) = False := by simp
    simp only [Session.arTest, Session.admits, hop, hne, if_false, arShort_shortBytes,
      keptNumber_short hop hday]

/-- A requirement that is a keyword and a number is evaluated with one comparison. -/
theorem chkAr_requirement (cfg : ArConfig) (s : Session) {k : Str × UInt8} (hk : k ∈ thresholds)
    (n : ℕ) :
    ∃ count buf, arstr cfg (requirement k.1 n) = some (count, buf) ∧
      chkAr s (some buf) = some (s.admits k.2 (comparedWith k.2 n)) := by
  have hcode : k.2 ∈ thresholdCodes := by simpa using (List.mem_filter.mp hk).2
  obtain ⟨bytes, hbytes, hlen⟩ := exists_numberBytes hk (UInt32.ofNat n)
  refine ⟨_, _, arstr_requirement cfg hk n hbytes, ?_⟩
  have hspecial : ∀ code ∈ thresholdCodes, code ≠ 0 ∧ code ≠ arEndnest ∧ code ≠ arOr ∧
      code ≠ arNot ∧ code ≠ arEqual ∧ code ≠ arBegnest := by decide
  obtain ⟨h0, hend, hor, hnot, hequal, hbeg⟩ := hspecial k.2 hcode
  have htest := arTest_kept s hcode hbytes (List.replicate 5 0)
  have hskip : ∃ t, arSkip k.2 (k.2 :: (bytes ++ List.replicate 5 0)) = 0 :: t := by
    rcases operand_cases hcode with hop | ⟨hop, -⟩
    · obtain ⟨b, rfl⟩ := List.length_eq_one_iff.mp (by simpa [operandLength, hop] using hlen)
      exact ⟨List.replicate 4 0, by rw [arSkip, hop]; rfl⟩
    · obtain ⟨b, d, rfl⟩ := List.length_eq_two.mp (by simpa [operandLength, hop] using hlen)
      exact ⟨List.replicate 4 0, by rw [arSkip, hop]; rfl⟩
  obtain ⟨t, ht⟩ := hskip
  rw [List.cons_append, chkAr, List.length_cons, arExpLoop]
  simp only [arFlag, List.headD_cons, List.tail_cons, h0, hend, hor, hnot, hequal, hbeg, if_false,
    or_self, htest, ht, Bool.and_false, Bool.not_true, Bool.false_and, Bool.or_self,
    Bool.false_eq_true, Bool.not_false]
  rw [List.length_append, List.length_replicate, arExpLoop]
  simp

/-! ## Thresholds -/

/-- What the comparison of `100/((float)a/b)` with a number is like: larger numbers are not
reached where smaller ones are not, and less of `b` than of `a` is less than 100 percent, which
is exact for `ushort`s. -/
structure Session.Ratios (s : Session) : Prop where
  mono : ∀ a b k l, k ≤ l → s.percentBelow a b k = true → s.percentBelow a b l = true
  below : ∀ a b k, 0 < b → b < a → 100 < k → s.percentBelow a b k = true
  belowShort : ∀ a b, 0 < b → b < a → a < 2 ^ 16 → s.percentBelow a b 100 = true

/-- The operands that an operand of `artype` may have. -/
def operandBound (artype : UInt8) : ℕ := if arOperand artype = .byte then 2 ^ 8 else 2 ^ 32

/-- The operands from which on no value but a full ratio is admitted, or none at all. -/
def beyond (artype : UInt8) : ℕ :=
  if artype ∈ [arPcr, arUdfr] then 100
  else if artype = arUdr then 101
  else if artype ∈ [arUser, arLogons, arUls, arDls, arGroup, arLib] then 2 ^ 16
  else 2 ^ 32

theorem comparedWith_lt (artype : UInt8) (n : ℕ) :
    comparedWith artype n < operandBound artype := by
  have hsigned : ∀ n, signed16 n < 2 ^ 32 := by
    intro n
    rw [signed16]
    split <;> omega
  rw [comparedWith, operandBound]
  split
  · have hpow : (2 : ℕ) ^ 8 ≤ 2 ^ 32 := by decide
    split <;> omega
  · split
    · exact Nat.mod_lt _ (by decide)
    · split
      · exact hsigned _
      · split <;> exact hsigned _

section Admits

variable {s : Session} {i j : ℕ}

theorem toNat_byte (h : i < 2 ^ 8) : (UInt8.ofNat i).toNat = i := UInt8.toNat_ofNat_of_lt' h

/-- Ratios: what is admitted at a number is admitted below it. -/
theorem ratio_mono (hs : s.Ratios) (hij : i ≤ j) (hj : j < 2 ^ 8) {a b : ℕ}
    (h : s.percentBelow a b (UInt8.ofNat i) = true) : s.percentBelow a b (UInt8.ofNat j) = true :=
  hs.mono a b _ _ (by rw [UInt8.le_iff_toNat_le, toNat_byte hj, toNat_byte (by omega)]; exact hij) h

theorem admits_byte {artype : UInt8} (hop : arOperand artype = .byte) :
    s.admits artype i = (s.byteTest (s.moment 0) artype false (UInt8.ofNat i)).getD false := by
  rw [Session.admits, if_pos hop]

theorem admits_short {artype : UInt8} (hop : arOperand artype = .short) :
    s.admits artype i = (s.shortTest (s.moment 0) artype false (UInt32.ofNat i)).getD false := by
  rw [Session.admits, if_neg (by simp [hop])]

/-- The greatest operand that is admitted, for keywords that are no ratios. -/
def Session.value (s : Session) (artype : UInt8) : ℤ :=
  match artype with
  | arLevel => s.user.level.toNat
  | arAge => (s.moment 0).age.toNat
  | arNode => s.nodeNum.toNat
  | arTleft => (s.timeleft.toNat / 60 : ℕ)
  | arTused => ((s.moment 0).time - s.logontime).tdiv 60
  | arDay => (s.moment 0).wday
  | arBps => s.curRate.toNat
  | arCredit => ((s.user.cdt + s.user.freecdt).toNat / 1024 : ℕ)
  | arUser => s.user.number.toNat
  | arGroup => (s.subs[s.cursubnum.toNat]?).elim (2 ^ 32) fun area ↦ area.group.toNat
  | arSub => s.cursubnum.toNat
  | arLib => (s.dirs[s.curdirnum.toNat]?).elim (2 ^ 32) fun area ↦ area.group.toNat
  | arDir => s.curdirnum.toNat
  | arExpire =>
      if s.user.expire = 0 then -1 else (s.user.expire - (s.moment 0).time) / (24 * 60 * 60)
  | arLaston => ((s.moment 0).time - s.user.laston).tdiv (24 * 60 * 60)
  | arLogons => s.user.logons.toNat
  | arMainCmds => s.mainCmds.toNat
  | arFileCmds => s.xferCmds.toNat
  | arUls => s.user.uls.toNat
  | arUlk => (s.user.ulb.toNat / 1024 : ℕ)
  | arUlm => (s.user.ulb.toNat / (1024 * 1024) : ℕ)
  | arDls => s.user.dls.toNat
  | arDlk => (s.user.dlb.toNat / 1024 : ℕ)
  | arDlm => (s.user.dlb.toNat / (1024 * 1024) : ℕ)
  | _ => 0

theorem meets_eq {v x : ℕ} (h : x = i) : meets false v x = decide ((i : ℤ) ≤ v) := by
  simp [meets, h]

theorem decide_int_eq {v : ℤ} {x : ℕ} (h : x = i) :
    decide ((x : ℤ) ≤ v) = decide ((i : ℤ) ≤ v) := by
  rw [h]

theorem meetsGroup_eq (areas : List Area) (num : UInt32) {x : ℕ} (h : x = i) (hi : i < 2 ^ 32) :
    meetsGroup false areas num x =
      decide ((i : ℤ) ≤ (areas[num.toNat]?).elim (2 ^ 32 : ℤ) fun area ↦ area.group.toNat) := by
  rw [meetsGroup]
  split
  · next heq => rw [heq, meets_eq h, Option.elim_some]
  · next heq =>
    rw [heq, Option.elim_none]
    simp
    omega

theorem meets_credit (v : ℕ) (hi : i < 2 ^ 32) :
    meets false v ((UInt32.ofNat i).toUInt64 * 1024).toNat = decide ((i : ℤ) ≤ (v / 1024 : ℕ)) := by
  have hmul : ((UInt32.ofNat i).toUInt64 * 1024).toNat = i * 1024 := by
    rw [UInt64.toNat_mul, UInt32.toNat_toUInt64, Words.toNat_ofNat_uint32 hi,
      show (1024 : UInt64).toNat = 1024 from rfl]
    omega
  rw [hmul, meets]
  simp only [Bool.false_eq_true, if_false, decide_eq_decide]
  omega

theorem expire_eq (expire time : ℤ) {x : ℕ} (h : x = i) :
    (decide (expire ≠ 0) && decide (time + x * (24 * 60 * 60) ≤ expire)) =
      decide ((i : ℤ) ≤ if expire = 0 then -1 else (expire - time) / (24 * 60 * 60)) := by
  subst h
  by_cases hzero : expire = 0
  · have hneg : ¬((x : ℤ) ≤ -1) := by omega
    simp [hzero, hneg]
  · simp only [hzero, ne_eq, not_false_eq_true, decide_true, Bool.true_and, if_false,
      decide_eq_decide]
    omega

def ratioCodes : List UInt8 := [arPcr, arUdr, arUdfr]

/-- What is not a ratio is compared with a value. -/
theorem admits_eq (s : Session) {artype : UInt8} (hcode : artype ∈ thresholdCodes)
    (hratio : artype ∉ ratioCodes) (hi : i < operandBound artype) :
    s.admits artype i = decide ((i : ℤ) ≤ s.value artype) := by
  simp only [thresholdCodes, List.mem_cons, List.not_mem_nil, or_false] at hcode
  rcases hcode with rfl | rfl | rfl | rfl | rfl | rfl | rfl | rfl | rfl | rfl | rfl | rfl | rfl |
    rfl | rfl | rfl | rfl | rfl | rfl | rfl | rfl | rfl | rfl | rfl | rfl | rfl | rfl
  -- LEVEL, AGE, the ratios, NODE, TLEFT, TUSED, DAY
  · exact meets_eq (toNat_byte hi)
  · exact meets_eq (toNat_byte hi)
  iterate 3 exact absurd (by decide) hratio
  · exact meets_eq (toNat_byte hi)
  · exact meets_eq (v := s.timeleft.toNat / 60) (toNat_byte hi)
  · exact decide_int_eq (toNat_byte hi)
  · exact decide_int_eq (toNat_byte hi)
  -- BPS, CREDIT, USER, GROUP, SUB, LIB, DIR, EXPIRE, LASTON
  · exact meets_eq (Words.toNat_ofNat_uint32 hi)
  · exact meets_credit _ hi
  · exact meets_eq (Words.toNat_ofNat_uint32 hi)
  · exact meetsGroup_eq _ _ (Words.toNat_ofNat_uint32 hi) hi
  · exact meets_eq (Words.toNat_ofNat_uint32 hi)
  · exact meetsGroup_eq _ _ (Words.toNat_ofNat_uint32 hi) hi
  · exact meets_eq (Words.toNat_ofNat_uint32 hi)
  · exact expire_eq _ _ (Words.toNat_ofNat_uint32 hi)
  · exact decide_int_eq (Words.toNat_ofNat_uint32 hi)
  all_goals exact meets_eq (Words.toNat_ofNat_uint32 hi)

/-- A ratio of `b` to `a` is not below a number, or `b` is not below `a`. -/
def reaches (s : Session) (a b : ℕ) (i : ℕ) : Bool :=
  !(decide (b < a) && (decide (b = 0) || s.percentBelow a b (UInt8.ofNat i)))

theorem reaches_mono (hs : s.Ratios) (hij : i ≤ j) (hj : j < 2 ^ 8) {a b : ℕ}
    (h : reaches s a b j = true) : reaches s a b i = true := by
  simp only [reaches, Bool.not_eq_true', Bool.and_eq_false_iff, Bool.or_eq_false_iff] at h ⊢
  refine h.imp_right fun ⟨hzero, hbelow⟩ ↦ ⟨hzero, ?_⟩
  by_contra hnot
  rw [ratio_mono hs hij hj (by simpa using hnot)] at hbelow
  cases hbelow

/-- Beyond 100 percent only what is not below its base is admitted. -/
theorem reaches_beyond (hs : s.Ratios) (hj : 100 < j) (hj' : j < 2 ^ 8) {a b : ℕ}
    (h : reaches s a b j = true) : a ≤ b := by
  by_contra hlt
  simp only [reaches, Bool.not_eq_true', Bool.and_eq_false_iff, Bool.or_eq_false_iff,
    decide_eq_false_iff_not] at h
  obtain ⟨hzero, hbelow⟩ := h.resolve_left (by omega)
  rw [hs.below a b (UInt8.ofNat j) (by omega) (by omega)
    (by rw [UInt8.lt_iff_toNat_lt, toNat_byte hj']; exact hj)] at hbelow
  cases hbelow

theorem reaches_of_le {a b : ℕ} (h : a ≤ b) : reaches s a b i = true := by
  have hlt : ¬b < a := by omega
  simp [reaches, hlt]

/-- What a ratio is of, and its base. -/
def Session.ratio (s : Session) (artype : UInt8) : ℕ × ℕ :=
  match artype with
  | arPcr => (s.user.logons.toNat, s.user.posts.toNat)
  | arUdr => (s.user.dlb.toNat, s.user.ulb.toNat)
  | _ => (s.user.dls.toNat, s.user.uls.toNat)

theorem admits_pcr (s : Session) (i : ℕ) :
    s.admits arPcr i = reaches s s.user.logons.toNat s.user.posts.toNat i := by
  have hzero : s.user.posts.toNat = 0 ↔ s.user.posts = 0 := by
    rw [← UInt16.toNat_inj]
    rfl
  simp only [reaches, hzero]
  rfl

/-- A base of zero is not below anything. -/
theorem reaches_base {a b : ℕ} (i : ℕ) :
    (!(decide (b < a) && (decide (b = 0) ||
      s.percentBelow (if a = 0 then 1 else a) b (UInt8.ofNat i)))) = reaches s a b i := by
  by_cases ha : a = 0
  · simp [reaches, ha]
  · rw [if_neg ha]
    rfl

theorem admits_udr (s : Session) (i : ℕ) :
    s.admits arUdr i = reaches s s.user.dlb.toNat s.user.ulb.toNat i := by
  have hzero : ∀ x : UInt64, x.toNat = 0 ↔ x = 0 := by
    intro x
    rw [← UInt64.toNat_inj]
    rfl
  have hbase : (if s.user.dlb = 0 then 1 else s.user.dlb).toNat =
      if s.user.dlb.toNat = 0 then 1 else s.user.dlb.toNat := by
    simp only [hzero]
    split <;> rfl
  rw [← reaches_base, ← hbase]
  simp only [hzero]
  rfl

theorem admits_udfr (s : Session) (i : ℕ) :
    s.admits arUdfr i = reaches s s.user.dls.toNat s.user.uls.toNat i := by
  have hzero : ∀ x : UInt16, x.toNat = 0 ↔ x = 0 := by
    intro x
    rw [← UInt16.toNat_inj]
    rfl
  have hbase : (if s.user.dls = 0 then 1 else s.user.dls).toNat =
      if s.user.dls.toNat = 0 then 1 else s.user.dls.toNat := by
    simp only [hzero]
    split <;> rfl
  rw [← reaches_base, ← hbase]
  simp only [hzero]
  rfl

theorem admits_ratio (s : Session) {artype : UInt8} (h : artype ∈ ratioCodes) (i : ℕ) :
    s.admits artype i = reaches s (s.ratio artype).1 (s.ratio artype).2 i := by
  simp only [ratioCodes, List.mem_cons, List.not_mem_nil, or_false] at h
  rcases h with rfl | rfl | rfl
  · exact admits_pcr s i
  · exact admits_udr s i
  · exact admits_udfr s i

theorem ratio_bound {artype : UInt8} (h : artype ∈ ratioCodes) : operandBound artype = 2 ^ 8 := by
  simp only [ratioCodes, List.mem_cons, List.not_mem_nil, or_false] at h
  rcases h with rfl | rfl | rfl <;> rfl

/-- A lower operand admits more. -/
theorem admits_mono (hs : s.Ratios) {artype : UInt8} (hcode : artype ∈ thresholdCodes)
    (hij : i ≤ j) (hj : j < operandBound artype) (h : s.admits artype j = true) :
    s.admits artype i = true := by
  by_cases hratio : artype ∈ ratioCodes
  · rw [admits_ratio s hratio] at h ⊢
    rw [ratio_bound hratio] at hj
    exact reaches_mono hs hij hj h
  · rw [admits_eq s hcode hratio hj, decide_eq_true_eq] at h
    rw [admits_eq s hcode hratio (by omega), decide_eq_true_eq]
    omega

/-- Values have a greatest one. -/
theorem value_lt_beyond (s : Session) {artype : UInt8} (h : beyond artype = 2 ^ 16)
    (hj : 2 ^ 16 ≤ j) (hle : (j : ℤ) ≤ s.value artype) : s.value artype = 2 ^ 32 := by
  have hlist : artype ∈ [arUser, arLogons, arUls, arDls, arGroup, arLib] := by
    by_contra hnot
    rw [beyond, if_neg hnot] at h
    split at h
    · cases h
    · split at h <;> cases h
  have hshort : ∀ x : UInt16, ¬(j : ℤ) ≤ x.toNat := by
    intro x
    have := x.toNat_lt
    omega
  have harea : ∀ area : Option Area, (j : ℤ) ≤ area.elim (2 ^ 32 : ℤ) (fun a ↦ a.group.toNat) →
      area.elim (2 ^ 32 : ℤ) (fun a ↦ (a.group.toNat : ℤ)) = 2 ^ 32 := by
    intro area hle
    cases area with
    | none => rfl
    | some a => exact absurd hle (hshort a.group)
  simp only [List.mem_cons, List.not_mem_nil, or_false] at hlist
  rcases hlist with rfl | rfl | rfl | rfl | rfl | rfl
  · exact absurd hle (hshort _)
  · exact absurd hle (hshort _)
  · exact absurd hle (hshort _)
  · exact absurd hle (hshort _)
  · exact harea _ hle
  · exact harea _ hle

theorem reaches_beyond_short (hs : s.Ratios) (hj : 100 ≤ j) (hj' : j < 2 ^ 8) {a b : ℕ}
    (ha : a < 2 ^ 16) (h : reaches s a b j = true) : a ≤ b := by
  obtain rfl | hlt := Nat.eq_or_lt_of_le hj
  · by_contra hlt
    simp only [reaches, Bool.not_eq_true', Bool.and_eq_false_iff, Bool.or_eq_false_iff,
      decide_eq_false_iff_not] at h
    obtain ⟨hzero, hbelow⟩ := h.resolve_left (by omega)
    rw [show UInt8.ofNat 100 = 100 from rfl, hs.belowShort a b (by omega) (by omega) ha] at hbelow
    cases hbelow
  · exact reaches_beyond hs hlt hj' h

/-- Where an operand is beyond what is told apart, all are admitted that it admits. -/
theorem admits_of_beyond (hs : s.Ratios) {artype : UInt8} (hcode : artype ∈ thresholdCodes)
    (hi : i < operandBound artype) (hj : j < operandBound artype) (hbeyond : beyond artype ≤ j)
    (h : s.admits artype j = true) : s.admits artype i = true := by
  by_cases hratio : artype ∈ ratioCodes
  · rw [admits_ratio s hratio] at h ⊢
    rw [ratio_bound hratio] at hj
    apply reaches_of_le
    simp only [ratioCodes, List.mem_cons, List.not_mem_nil, or_false] at hratio
    rcases hratio with rfl | rfl | rfl
    · exact reaches_beyond_short hs hbeyond hj (UInt16.toNat_lt _) h
    · exact reaches_beyond hs hbeyond hj h
    · exact reaches_beyond_short hs hbeyond hj (UInt16.toNat_lt _) h
  · have hbound : operandBound artype ≤ 2 ^ 32 := by
      rw [operandBound]
      split <;> decide
    rw [admits_eq s hcode hratio hj, decide_eq_true_eq] at h
    rw [admits_eq s hcode hratio hi, decide_eq_true_eq]
    have hcases : ∀ code ∈ thresholdCodes, code ∉ ratioCodes →
        beyond code = 2 ^ 16 ∨ beyond code = 2 ^ 32 := by decide
    rcases hcases artype hcode hratio with hshort | hnone
    · rw [value_lt_beyond s hshort (hshort ▸ hbeyond) h]
      omega
    · omega

/-! ### Users at a threshold -/

theorem ratios_default {s : Session}
    (h : s.percentBelow = fun a b n ↦ decide (100 * b < n.toNat * a)) : s.Ratios := by
  constructor
  · intro a b k l hkl
    simp only [h, decide_eq_true_eq]
    intro hlt
    exact hlt.trans_le (Nat.mul_le_mul_right a (UInt8.le_iff_toNat_le.mp hkl))
  · intro a b k hb hba hk
    have hk' : 100 < k.toNat := UInt8.lt_iff_toNat_lt.mp hk
    have hle := Nat.mul_le_mul_right a hk'.le
    simp only [h, decide_eq_true_eq]
    omega
  · intro a b hb hba ha
    simp only [h, decide_eq_true_eq]
    change 100 * b < 100 * a
    omega

/-- A session in which `e` is the greatest operand that is admitted. -/
def borderline (artype : UInt8) (e : ℕ) : Session :=
  match artype with
  | arLevel => { user := { level := UInt8.ofNat e } }
  | arAge => { moment := fun _ ↦ { age := UInt32.ofNat e } }
  | arNode => { nodeNum := UInt16.ofNat e }
  | arTleft => { timeleft := UInt64.ofNat (60 * e) }
  | arTused => { moment := fun _ ↦ { time := 60 * e } }
  | arDay => { moment := fun _ ↦ { wday := e } }
  | arBps => { curRate := UInt64.ofNat e }
  | arCredit => { user := { cdt := UInt64.ofNat (1024 * e) } }
  | arUser => { user := { number := UInt16.ofNat e } }
  | arGroup => { subs := [⟨UInt16.ofNat e, []⟩] }
  | arSub => { cursubnum := UInt32.ofNat e }
  | arLib => { dirs := [⟨UInt16.ofNat e, []⟩] }
  | arDir => { curdirnum := UInt32.ofNat e }
  | arExpire => { user := { expire := 24 * 60 * 60 * e + 1 }, moment := fun _ ↦ { time := 1 } }
  | arLaston => { moment := fun _ ↦ { time := 24 * 60 * 60 * e } }
  | arLogons => { user := { logons := UInt16.ofNat e } }
  | arMainCmds => { mainCmds := UInt32.ofNat e }
  | arFileCmds => { xferCmds := UInt32.ofNat e }
  | arUls => { user := { uls := UInt16.ofNat e } }
  | arUlk => { user := { ulb := UInt64.ofNat (1024 * e) } }
  | arUlm => { user := { ulb := UInt64.ofNat (1024 * 1024 * e) } }
  | arDls => { user := { dls := UInt16.ofNat e } }
  | arDlk => { user := { dlb := UInt64.ofNat (1024 * e) } }
  | arDlm => { user := { dlb := UInt64.ofNat (1024 * 1024 * e) } }
  -- a ratio of e + 0.1 percent
  | arPcr => { user := { logons := 1000, posts := UInt16.ofNat (10 * e + 1) } }
  | arUdfr => { user := { dls := 1000, uls := UInt16.ofNat (10 * e + 1) } }
  | _ => { user := { dlb := 1000, ulb := UInt64.ofNat (10 * e + 1) } }

theorem value_borderline {artype : UInt8} (hcode : artype ∈ thresholdCodes)
    (hratio : artype ∉ ratioCodes) {e : ℕ} (he : e < operandBound artype)
    (hbeyond : e < beyond artype) : (borderline artype e).value artype = e := by
  have h16 : ∀ n < 2 ^ 16, (UInt16.ofNat n).toNat = n := fun n hn ↦ UInt16.toNat_ofNat_of_lt' hn
  have h64 : ∀ n < 2 ^ 64, (UInt64.ofNat n).toNat = n := fun n hn ↦ UInt64.toNat_ofNat_of_lt' hn
  have hscaled : ∀ a, 0 < a → a * e < 2 ^ 64 → (UInt64.ofNat (a * e)).toNat / a = e := by
    intro a ha hlt
    rw [h64 _ hlt, Nat.mul_div_cancel_left _ ha]
  have hcast : ∀ {x : ℕ}, x = e → (x : ℤ) = e := fun h ↦ congrArg _ h
  simp only [thresholdCodes, List.mem_cons, List.not_mem_nil, or_false] at hcode
  rcases hcode with rfl | rfl | rfl | rfl | rfl | rfl | rfl | rfl | rfl | rfl | rfl | rfl | rfl |
    rfl | rfl | rfl | rfl | rfl | rfl | rfl | rfl | rfl | rfl | rfl | rfl | rfl | rfl
  -- LEVEL, AGE, the ratios, NODE, TLEFT, TUSED, DAY
  · exact hcast (toNat_byte he)
  · exact hcast (Words.toNat_ofNat_uint32 (he.trans (by decide)))
  iterate 3 exact absurd (by decide) hratio
  · exact hcast (h16 e (he.trans (by decide)))
  · have he' : e < 2 ^ 8 := he
    exact hcast (hscaled 60 (by decide) (by omega))
  · change ((60 * e : ℤ) - 0).tdiv 60 = e
    rw [sub_zero, Int.mul_tdiv_cancel_left _ (by decide)]
  · rfl
  -- BPS, CREDIT, USER, GROUP, SUB, LIB, DIR, EXPIRE, LASTON
  · exact hcast (h64 e (he.trans (by decide)))
  · have he' : e < 2 ^ 32 := he
    refine hcast ?_
    change (UInt64.ofNat (1024 * e) + 0).toNat / 1024 = e
    rw [UInt64.add_zero, h64 _ (by omega)]
    omega
  · exact hcast (h16 e hbeyond)
  · exact hcast (h16 e hbeyond)
  · exact hcast (Words.toNat_ofNat_uint32 he)
  · exact hcast (h16 e hbeyond)
  · exact hcast (Words.toNat_ofNat_uint32 he)
  · change (if (24 * 60 * 60 * e + 1 : ℤ) = 0 then (-1 : ℤ)
      else (24 * 60 * 60 * e + 1 - 1) / (24 * 60 * 60)) = e
    rw [if_neg (by omega)]
    omega
  · change ((24 * 60 * 60 * e : ℤ) - 0).tdiv (24 * 60 * 60) = e
    rw [sub_zero, Int.mul_tdiv_cancel_left _ (by decide)]
  -- LOGONS, MAIN_CMDS, FILE_CMDS, ULS, ULK, ULM, DLS, DLK, DLM
  · exact hcast (h16 e hbeyond)
  · exact hcast (Words.toNat_ofNat_uint32 he)
  · exact hcast (Words.toNat_ofNat_uint32 he)
  · exact hcast (h16 e hbeyond)
  · have he' : e < 2 ^ 32 := he
    exact hcast (hscaled 1024 (by decide) (by omega))
  · have he' : e < 2 ^ 32 := he
    exact hcast (hscaled (1024 * 1024) (by decide) (by omega))
  · exact hcast (h16 e hbeyond)
  · have he' : e < 2 ^ 32 := he
    exact hcast (hscaled 1024 (by decide) (by omega))
  · have he' : e < 2 ^ 32 := he
    exact hcast (hscaled (1024 * 1024) (by decide) (by omega))

/-- A percentage that is full for numbers that a `float` does not tell apart. -/
def nearlyEqual : Session :=
  { user := { dlb := 2 ^ 24 + 1, ulb := 2 ^ 24 }
    percentBelow := fun a b n ↦ decide (100 < n ∨ a < 2 ^ 16 ∧ 100 * b < n.toNat * a) }

theorem nearlyEqual_ratios : nearlyEqual.Ratios := by
  constructor
  · intro a b k l hkl h
    have hle := UInt8.le_iff_toNat_le.mp hkl
    have hmul := Nat.mul_le_mul_right a hle
    simp only [nearlyEqual, decide_eq_true_eq, UInt8.lt_iff_toNat_lt] at h ⊢
    rcases h with h | ⟨ha, h⟩
    · exact Or.inl (h.trans_le hle)
    · exact Or.inr ⟨ha, h.trans_le hmul⟩
  · intro a b k _ _ hk
    simp [nearlyEqual, hk]
  · intro a b _ hba ha
    simp [nearlyEqual]
    omega

theorem reaches_borderline {s : Session} {e i : ℕ}
    (h : s.percentBelow = fun a b n ↦ decide (100 * b < n.toNat * a)) (he : e < 100)
    (hi : i < 2 ^ 8) : reaches s 1000 (10 * e + 1) i = decide (i ≤ e) := by
  have hval := toNat_byte hi
  have hlt : 10 * e + 1 < 1000 := by omega
  simp only [reaches, h, hval, hlt, decide_true, Bool.true_and, Nat.add_eq_zero_iff,
    Nat.one_ne_zero, and_false, decide_false, Bool.false_or]
  rw [← decide_not, decide_eq_decide]
  omega

/-- There is a session in which a higher operand admits what a lower one does not. -/
theorem exists_admits_not {artype : UInt8} (hcode : artype ∈ thresholdCodes) {e i : ℕ}
    (hi : i < operandBound artype) (hlt : e < i) (hbeyond : e < beyond artype) :
    ∃ s : Session, s.Ratios ∧ s.admits artype e = true ∧ s.admits artype i = false := by
  by_cases hratio : artype ∈ ratioCodes
  · rw [ratio_bound hratio] at hi
    by_cases he : e < 100
    · refine ⟨borderline artype e, ?_⟩
      have hbase : (borderline artype e).percentBelow =
          (fun a b n ↦ decide (100 * b < n.toNat * a)) ∧
          (borderline artype e).ratio artype = (1000, 10 * e + 1) := by
        have h16 : (UInt16.ofNat (10 * e + 1)).toNat = 10 * e + 1 :=
          UInt16.toNat_ofNat_of_lt' (by change _ < 2 ^ 16; omega)
        have h64 : (UInt64.ofNat (10 * e + 1)).toNat = 10 * e + 1 :=
          UInt64.toNat_ofNat_of_lt' (by change _ < 2 ^ 64; omega)
        simp only [ratioCodes, List.mem_cons, List.not_mem_nil, or_false] at hratio
        rcases hratio with rfl | rfl | rfl
        · exact ⟨rfl, congrArg (Prod.mk 1000) h16⟩
        · exact ⟨rfl, congrArg (Prod.mk 1000) h64⟩
        · exact ⟨rfl, congrArg (Prod.mk 1000) h16⟩
      rw [admits_ratio _ hratio, admits_ratio _ hratio, hbase.2,
        reaches_borderline hbase.1 he (by omega), reaches_borderline hbase.1 he hi]
      exact ⟨ratios_default hbase.1, by simp, by simpa using hlt⟩
    · have hudr : artype = arUdr ∧ e = 100 := by
        simp only [ratioCodes, List.mem_cons, List.not_mem_nil, or_false] at hratio
        rcases hratio with rfl | rfl | rfl
        · exact absurd hbeyond (by change ¬e < 100; exact he)
        · have : e < 101 := hbeyond
          exact ⟨rfl, by omega⟩
        · exact absurd hbeyond (by change ¬e < 100; exact he)
      obtain ⟨rfl, rfl⟩ := hudr
      refine ⟨nearlyEqual, nearlyEqual_ratios, by decide, ?_⟩
      have hbelow : 100 < UInt8.ofNat i := by
        rw [UInt8.lt_iff_toNat_lt, toNat_byte hi]
        exact hlt
      rw [admits_udr]
      simp [reaches, nearlyEqual, hbelow]
      decide
  · refine ⟨borderline artype e, ?_, ?_, ?_⟩
    · have hdefault : ∀ code ∈ thresholdCodes, code ∉ ratioCodes →
          (borderline code e).percentBelow = fun a b n ↦ decide (100 * b < n.toNat * a) := by
        simp only [thresholdCodes, List.forall_mem_cons, List.not_mem_nil, false_implies,
          implies_true, and_true]
        refine ⟨?_, ?_, ?_, ?_, ?_, ?_, ?_, ?_, ?_, ?_, ?_, ?_, ?_, ?_, ?_, ?_, ?_, ?_, ?_, ?_, ?_,
          ?_, ?_, ?_, ?_, ?_, ?_⟩ <;> exact fun _ ↦ rfl
      exact ratios_default (hdefault artype hcode hratio)
    · rw [admits_eq _ hcode hratio (hlt.trans hi),
        value_borderline hcode hratio (hlt.trans hi) hbeyond]
      simp
    · rw [admits_eq _ hcode hratio hi, value_borderline hcode hratio (hlt.trans hi) hbeyond]
      simpa using hlt

/-! ### Raising a threshold -/

/-- Whether `chk_ar` grants access for a requirement. -/
def Session.granted (s : Session) (cfg : ArConfig) (str : Str) : Prop :=
  ∃ count buf, arstr cfg str = some (count, buf) ∧ chkAr s (some buf) = some true

theorem granted_iff (cfg : ArConfig) (s : Session) {k : Str × UInt8} (hk : k ∈ thresholds) (n : ℕ) :
    s.granted cfg (requirement k.1 n) ↔ s.admits k.2 (comparedWith k.2 n) = true := by
  obtain ⟨count, buf, harstr, hchk⟩ := chkAr_requirement cfg s hk n
  constructor
  · rintro ⟨count', buf', harstr', hchk'⟩
    obtain ⟨-, rfl⟩ := Prod.mk.inj (Option.some.inj (harstr.symm.trans harstr'))
    exact Option.some.inj (hchk.symm.trans hchk')
  · intro h
    exact ⟨count, buf, harstr, by rw [hchk, h]⟩

/-- A higher number admits nobody else just when what `arstr` keeps of it is not lower, or is
beyond every value. -/
theorem raise_threshold_iff (cfg : ArConfig) (k : Str × UInt8) (hk : k ∈ thresholds) (n m : ℕ) :
    (∀ s : Session, s.Ratios → s.granted cfg (requirement k.1 m) →
        s.granted cfg (requirement k.1 n)) ↔
      comparedWith k.2 n ≤ comparedWith k.2 m ∨ beyond k.2 ≤ comparedWith k.2 m := by
  have hcode : k.2 ∈ thresholdCodes := by simpa using (List.mem_filter.mp hk).2
  have hn := comparedWith_lt k.2 n
  have hm := comparedWith_lt k.2 m
  simp only [granted_iff cfg _ hk]
  constructor
  · intro hall
    by_contra hnot
    rw [not_or, not_le, not_le] at hnot
    obtain ⟨s, hs, hyes, hno⟩ := exists_admits_not hcode hn hnot.1 hnot.2
    rw [hall s hs hyes] at hno
    cases hno
  · rintro (hle | hbeyond) s hs hyes
    · exact admits_mono hs hcode hle hm hyes
    · exact admits_of_beyond hs hcode hn hm hbeyond hyes

/-- `LEVEL 50` and `LEVEL 90`. -/
theorem raise_threshold_level :
    (∀ s : Session, s.Ratios → s.granted {} (requirement [76, 69, 86, 69, 76] 90) →
        s.granted {} (requirement [76, 69, 86, 69, 76] 50)) ↔
      comparedWith arLevel 50 ≤ comparedWith arLevel 90 ∨
        beyond arLevel ≤ comparedWith arLevel 90 :=
  raise_threshold_iff {} ([76, 69, 86, 69, 76], arLevel) (by decide) 50 90

/-- `LEVEL 256` admits a user of level 0 whom `LEVEL 1` does not admit. -/
theorem raise_level_widens : ¬∀ s : Session, s.Ratios →
    s.granted {} (requirement [76, 69, 86, 69, 76] 256) →
      s.granted {} (requirement [76, 69, 86, 69, 76] 1) := by
  intro hall
  have hk : (([76, 69, 86, 69, 76], arLevel) : Str × UInt8) ∈ thresholds := by decide
  have hno := hall {} (ratios_default rfl) ((granted_iff {} {} hk 256).mpr (by decide))
  exact absurd ((granted_iff {} {} hk 1).mp hno) (by decide)

end Admits

end Synchronet.Sbbs3
