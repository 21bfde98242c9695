import Mathlib.Data.Nat.Log
import Synchronet.Lib.Words
import Synchronet.Sbbs3.UserDat

/-!
# Numbers in user records

The texts that `ultoa` makes are read back by `atoi`, `strtoul` and `ahtoul`.
-/

namespace Synchronet.Sbbs3

open Smblib (atoi digitsValue)
open Xpdev (Str)

/-! ## Digits -/

/-- The text of a digit. -/
def digit (d : ℕ) : UInt8 := UInt8.ofNat (Nat.digitChar d).toNat

theorem ultoa_of_lt {n b : ℕ} (h : n < b) : ultoa n b = [digit n] := by
  rw [ultoa, Nat.toDigits_of_lt_base h]
  rfl

/-- The last digit of a number. -/
theorem ultoa_of_le {n b : ℕ} (hb : 1 < b) (h : b ≤ n) :
    ultoa n b = ultoa (n / b) b ++ [digit (n % b)] := by
  rw [ultoa, Nat.toDigits_of_base_le hb h, List.map_append]
  rfl

theorem length_ultoa_le {n b k : ℕ} (hb : 1 < b) (hk : 0 < k) (h : n < b ^ k) :
    (ultoa n b).length ≤ k := by
  rw [ultoa, List.length_map]
  exact (Nat.length_toDigits_le_iff hb hk).mpr h

/-- A number is built up from its digits. -/
theorem ultoa_induction {b : ℕ} (hb : 1 < b) {P : ℕ → List UInt8 → Prop}
    (hdigit : ∀ n < b, P n [digit n])
    (hstep : ∀ n s, b ≤ n → s = ultoa (n / b) b → P (n / b) s → P n (s ++ [digit (n % b)]))
    (n : ℕ) : P n (ultoa n b) := by
  induction n using Nat.strong_induction_on with
  | _ n ih =>
      by_cases hn : n < b
      · rw [ultoa_of_lt hn]
        exact hdigit n hn
      · have hle : b ≤ n := Nat.le_of_not_lt hn
        rw [ultoa_of_le hb hle]
        exact hstep n _ hle rfl (ih _ (Nat.div_lt_self (Nat.lt_of_lt_of_le (by omega) hle) hb))

/-- Every digit of a number has a property. -/
theorem forall_mem_ultoa {b : ℕ} (hb : 1 < b) {P : UInt8 → Prop} (h : ∀ d < b, P (digit d))
    (n : ℕ) : ∀ c ∈ ultoa n b, P c := by
  refine ultoa_induction (P := fun _ s ↦ ∀ c ∈ s, P c) hb (fun n hn ↦ ?_) (fun n s _ _ ih ↦ ?_) n
  · simpa using h n hn
  · intro c hc
    rcases List.mem_append.mp hc with hc | hc
    · exact ih c hc
    · rw [List.mem_singleton.mp hc]
      exact h _ (Nat.mod_lt _ (by omega))

theorem digits_ultoa (n : ℕ) : ∀ c ∈ ultoa n 10, 48 ≤ c ∧ c ≤ 57 :=
  forall_mem_ultoa (by decide) (by decide) n

theorem takeWhile_digits {d s : Str} (hd : ∀ c ∈ d, 48 ≤ c ∧ c ≤ 57)
    (hs : ∀ c ∈ s.head?, ¬(48 ≤ c ∧ c ≤ 57)) :
    (d ++ s).takeWhile (fun c ↦ decide (48 ≤ c ∧ c ≤ 57)) = d := by
  rw [List.takeWhile_append_of_pos fun c hc ↦ decide_eq_true (hd c hc)]
  cases s with
  | nil => simp
  | cons c s => rw [List.takeWhile_cons_of_neg (by simpa using hs c), List.append_nil]

/-- Digits are read up to what is not a digit. -/
theorem digitsValue_append {d s : Str} (hd : ∀ c ∈ d, 48 ≤ c ∧ c ≤ 57)
    (hs : ∀ c ∈ s.head?, ¬(48 ≤ c ∧ c ≤ 57)) : digitsValue (d ++ s) = digitsValue d := by
  have hself : d.takeWhile (fun c ↦ decide (48 ≤ c ∧ c ≤ 57)) = d := by
    simpa using takeWhile_digits (s := []) hd (by simp)
  rw [digitsValue, digitsValue, takeWhile_digits hd hs, hself]

theorem digitsValue_zero_cons (d : Str) :
    digitsValue (48 :: d) = digitsValue d := by
  rw [digitsValue, digitsValue, List.takeWhile_cons_of_pos (by decide), List.foldl_cons]
  rfl

theorem digitsValue_ultoa (n : ℕ) : digitsValue (ultoa n 10) = n := by
  have hdigits : (ultoa n 10).takeWhile (fun c ↦ decide (48 ≤ c ∧ c ≤ 57)) = ultoa n 10 := by
    simpa using takeWhile_digits (s := []) (digits_ultoa n) (by simp)
  rw [digitsValue, hdigits]
  refine ultoa_induction (P := fun n s ↦
    s.foldl (fun n (c : UInt8) ↦ 10 * n + (c.toNat - 48)) 0 = n) (by decide) ?_ ?_ n
  · decide
  · intro n s _ _ ih
    have hlast : ∀ d < 10, (digit d).toNat - 48 = d := by decide
    rw [List.foldl_append, ih, List.foldl_cons, List.foldl_nil, hlast _ (Nat.mod_lt _ (by decide))]
    exact Nat.div_add_mod n 10

/-- The digits of a number are read up to what is not a digit. -/
theorem digitsValue_ultoa_append (n : ℕ) {s : Str} (hs : ∀ c ∈ s.head?, ¬(48 ≤ c ∧ c ≤ 57)) :
    digitsValue (ultoa n 10 ++ s) = n :=
  (digitsValue_append (digits_ultoa n) hs).trans (digitsValue_ultoa n)

/-- A decimal number has neither a blank nor a sign in front of it. -/
theorem ultoa_ten_start (n : ℕ) : ∃ c s, ultoa n 10 = c :: s ∧ Smblib.isspace c = false ∧
    c ≠ 45 ∧ c ≠ 43 := by
  obtain ⟨c, s, hs⟩ := List.exists_cons_of_ne_nil (ultoa_ne_nil n 10)
  have hall : ∀ c ∈ ultoa n 10, Smblib.isspace c = false ∧ c ≠ 45 ∧ c ≠ 43 :=
    forall_mem_ultoa (by decide) (by decide) n
  exact ⟨c, s, hs, hall c (by rw [hs]; exact List.mem_cons_self)⟩

/-- A number without a sign, which may have zeros in front, and what is not a digit. -/
theorem atoi_append {d s : Str} (hne : d ≠ []) (hd : ∀ c ∈ d, 48 ≤ c ∧ c ≤ 57)
    (hs : ∀ c ∈ s.head?, ¬(48 ≤ c ∧ c ≤ 57)) : atoi (d ++ s) = digitsValue d := by
  obtain ⟨c, t, rfl⟩ := List.exists_cons_of_ne_nil hne
  have hstart : Smblib.isspace c = false ∧ c ≠ 45 ∧ c ≠ 43 := by
    have hall : ∀ c : UInt8, 48 ≤ c ∧ c ≤ 57 →
        Smblib.isspace c = false ∧ c ≠ 45 ∧ c ≠ 43 := by
      intro c hc
      have hlow := UInt8.le_iff_toNat_le.mp hc.1
      refine ⟨decide_eq_false ?_, ?_, ?_⟩
      · rintro (rfl | ⟨-, hle⟩)
        · exact absurd hlow (by decide)
        · exact absurd (hlow.trans (UInt8.le_iff_toNat_le.mp hle)) (by decide)
      · rintro rfl
        exact absurd hlow (by decide)
      · rintro rfl
        exact absurd hlow (by decide)
    exact hall c (hd c List.mem_cons_self)
  have hdrop : (c :: t ++ s).dropWhile Smblib.isspace = c :: t ++ s := by
    rw [List.cons_append, List.dropWhile_cons_of_neg (by simp [hstart.1])]
  rw [atoi, hdrop]
  split
  case h_1 heq => exact absurd (List.cons.inj heq).1 hstart.2.1
  case h_2 heq => exact absurd (List.cons.inj heq).1 hstart.2.2
  case h_3 => rw [digitsValue_append hd hs]

theorem atoi_ultoa_append (n : ℕ) {s : Str} (hs : ∀ c ∈ s.head?, ¬(48 ≤ c ∧ c ≤ 57)) :
    atoi (ultoa n 10 ++ s) = n := by
  rw [atoi_append (ultoa_ne_nil n 10) (digits_ultoa n) hs, digitsValue_ultoa]

theorem atoi_ultoa (n : ℕ) : atoi (ultoa n 10) = n := by
  simpa using atoi_ultoa_append n (s := []) (by simp)

theorem strtoul_ultoa {n : ℕ} (h : n < 2 ^ 64) : strtoul (ultoa n 10) = n := by
  obtain ⟨c, s, hs, hspace, hminus, hplus⟩ := ultoa_ten_start n
  have hdrop : (ultoa n 10).dropWhile Smblib.isspace = ultoa n 10 := by
    rw [hs, List.dropWhile_cons_of_neg (by simp [hspace])]
  rw [strtoul, hdrop]
  split
  case h_1 heq => exact absurd (List.cons.inj (hs.symm.trans heq)).1 hminus
  case h_2 heq => exact absurd (List.cons.inj (hs.symm.trans heq)).1 hplus
  case h_3 =>
    rw [digitsValue_ultoa]
    exact min_eq_left (Nat.le_sub_one_of_lt h)

theorem ahtoul_ultoa (n : ℕ) : ahtoul (ultoa n 16) = n % 2 ^ 64 := by
  have hdigits : (ultoa n 16).takeWhile (fun c ↦ decide (c ||| 0x20 ≠ 0x20)) = ultoa n 16 :=
    List.takeWhile_eq_self_iff.mpr
      (forall_mem_ultoa (P := fun c ↦ decide (c ||| 0x20 ≠ 0x20) = true) (by decide)
        (by decide) n)
  rw [ahtoul, hdigits]
  refine ultoa_induction (P := fun n s ↦ s.foldl (fun val (c : UInt8) ↦
    ((c &&& 0xf).toNat + (c >>> 6 &&& 1).toNat * 9 + val * 16) % 2 ^ 64) 0 = n % 2 ^ 64)
    (by decide) ?_ ?_ n
  · decide
  · intro n s _ _ ih
    have hlast : ∀ d < 16, ((digit d) &&& 0xf).toNat + (digit d >>> 6 &&& 1).toNat * 9 = d := by
      decide
    rw [List.foldl_append, ih, List.foldl_cons, List.foldl_nil, hlast _ (Nat.mod_lt _ (by decide))]
    omega

/-- The digits of a number in front of its last `k` digits. -/
theorem ultoa_shift {b : ℕ} (hb : 1 < b) (k : ℕ) {n : ℕ} (h : b ^ k ≤ n) :
    ∃ tail, tail.length = k ∧ ultoa n b = ultoa (n / b ^ k) b ++ tail := by
  induction k generalizing n with
  | zero => exact ⟨[], rfl, by simp⟩
  | succ k ih =>
      have hpos : 0 < b := Nat.lt_trans Nat.zero_lt_one hb
      have hle : b ≤ n := (Nat.le_pow (Nat.succ_pos k)).trans h
      have hdiv : b ^ k ≤ n / b := (Nat.le_div_iff_mul_le hpos).mpr h
      obtain ⟨tail, hlen, htail⟩ := ih hdiv
      refine ⟨tail ++ [digit (n % b)], by rw [List.length_append, hlen]; rfl, ?_⟩
      rw [ultoa_of_le hb hle, htail, Nat.div_div_eq_div_mul, ← Nat.pow_succ', List.append_assoc]

/-! ## Columns with numbers -/

/-- A string that `getrec` reads as it is. -/
def Clean (s : Str) : Prop := ∀ c ∈ s, endsField c = false ∧ c ≠ 0

theorem clean_ultoa_ten (n : ℕ) : Clean (ultoa n 10) :=
  forall_mem_ultoa (by decide) (by decide) n

theorem clean_ultoa_sixteen (n : ℕ) : Clean (ultoa n 16) :=
  forall_mem_ultoa (by decide) (by decide) n

/-- A time in front of 1970 is an `ulong` of 16 digits, of which a column keeps eight. -/
theorem time_ultoa (t : Int32) :
    Int32.ofNat (ahtoul ((ultoa (t.toInt % 2 ^ 64).toNat 16).take 8)) =
      if 0 ≤ t.toInt then t else -1 := by
  have hlow := t.le_toInt
  have hhigh := t.toInt_lt
  split
  case isTrue h =>
    have hmod : (t.toInt % 2 ^ 64).toNat = t.toInt.toNat := by omega
    have hlen : (ultoa t.toInt.toNat 16).length ≤ 8 :=
      length_ultoa_le (by decide) (by decide) (by omega)
    rw [hmod, List.take_of_length_le hlen, ahtoul_ultoa, Nat.mod_eq_of_lt (by omega)]
    apply Int32.toInt_inj.mp
    rw [Int32.toInt_ofNat_of_lt (by omega)]
    omega
  case isFalse h =>
    obtain ⟨tail, hlen, htail⟩ := @ultoa_shift 16 (by decide) 8 (t.toInt % 2 ^ 64).toNat (by omega)
    have hdiv : (t.toInt % 2 ^ 64).toNat / 16 ^ 8 = 2 ^ 32 - 1 := by omega
    rw [hdiv] at htail
    rw [htail, List.take_left' (by decide)]
    decide

end Synchronet.Sbbs3
