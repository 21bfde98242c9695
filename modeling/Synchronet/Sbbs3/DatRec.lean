import Mathlib.Data.List.TakeWhile
import Synchronet.Lib.RecordFile
import Synchronet.Smblib.Defs

/-!
# Text records (dat_rec.c)

The data files of the BBS are made of text records with a column for each field: a string
that is shorter than its column is filled up with ETX, and reading a column stops at the
first ETX, CR or LF in it.
-/

namespace Synchronet.Sbbs3

open RecordFile Smblib

def etx : UInt8 := 3

def crlf : List UInt8 := [13, 10]

def lenAlias : ℕ := 25

/-- `ultoa`, where `radix` is 10 or 16. -/
def ultoa (val radix : ℕ) : List UInt8 := (Nat.toDigits radix val).map fun c ↦ UInt8.ofNat c.toNat

/-- What `putrec` writes. -/
def column (length : ℕ) (strin : List UInt8) : List UInt8 :=
  strin.take length ++ List.replicate (length - strin.length) etx

def putrec (strout : List UInt8) (start length : ℕ) (strin : List UInt8) : List UInt8 :=
  writeAt 0 strout start (column length strin)

/-- A character at which `getrec` stops: ETX, CR or LF. -/
def endsField (c : UInt8) : Bool := c = etx || c = 13 || c = 10

/-- `getrec`: `strout` is used as a string. -/
def getrec (strin : List UInt8) (start length : ℕ) : List UInt8 :=
  cstr ((readAt strin start length).takeWhile fun c ↦ !endsField c)

@[simp] theorem length_column (length : ℕ) (s : List UInt8) : (column length s).length = length := by
  simp only [column, List.length_append, List.length_take, List.length_replicate]
  omega

theorem ultoa_ne_nil (val radix : ℕ) : ultoa val radix ≠ [] := by
  simpa [ultoa] using Nat.toDigits_ne_nil

/-- A decimal number is made of digits. -/
theorem mem_ultoa_ten {val : ℕ} {c : UInt8} (h : c ∈ ultoa val 10) :
    48 ≤ c.toNat ∧ c.toNat ≤ 57 := by
  obtain ⟨d, hd, rfl⟩ := List.mem_map.mp h
  have hdigit := Nat.isDigit_of_mem_toDigits (by decide) (by decide) hd
  simp only [Char.isDigit, Bool.and_eq_true, decide_eq_true_eq] at hdigit
  have hlow : 48 ≤ d.toNat := UInt32.le_iff_toNat_le.mp hdigit.1
  have hhigh : d.toNat ≤ 57 := UInt32.le_iff_toNat_le.mp hdigit.2
  rw [UInt8.toNat_ofNat', Nat.mod_eq_of_lt (by omega)]
  exact ⟨hlow, hhigh⟩

/-- Writing inside a record does not extend it. -/
theorem length_putrec {b : List UInt8} {start length size : ℕ} {s : List UInt8}
    (hb : b.length = size) (h : start + length ≤ size) :
    (putrec b start length s).length = size := by
  by_cases hnil : column length s = []
  · rw [putrec, hnil, writeAt_nil, hb]
  · rw [putrec, length_writeAt 0 b start hnil, length_column, hb]
    exact max_eq_left h

theorem getElem?_putrec_before {b : List UInt8} {start : ℕ} (length : ℕ) (s : List UInt8) {i : ℕ}
    (hi : i < start) (hb : i < b.length) : (putrec b start length s)[i]? = b[i]? :=
  getElem?_writeAt_before 0 b start _ hi hb

theorem getElem?_putrec_zero {b : List UInt8} {start length : ℕ} {s : List UInt8} {c : UInt8}
    (hstart : 0 < start) (hb : b[0]? = some c) : (putrec b start length s)[0]? = some c :=
  (getElem?_putrec_before length s hstart (List.getElem?_eq_some_iff.mp hb).1).trans hb

/-- A column keeps the string that fits in it. -/
theorem takeWhile_column {length : ℕ} {s : List UInt8} (hlen : s.length ≤ length)
    (hs : ∀ c ∈ s, endsField c = false) :
    (column length s).takeWhile (fun c ↦ !endsField c) = s := by
  have hfill : (List.replicate (length - s.length) etx).takeWhile (fun c ↦ !endsField c) = [] := by
    cases length - s.length with
    | zero => rfl
    | succ n => rfl
  rw [column, List.take_of_length_le hlen, List.takeWhile_append_of_pos (by simpa using hs), hfill,
    List.append_nil]

theorem take_column {n m : ℕ} (h : n ≤ m) (s : List UInt8) :
    (column m s).take n = column n s := by
  rw [column, column, List.take_append, List.take_take, min_eq_left h, List.take_replicate,
    List.length_take]
  congr 2
  omega

theorem column_take (n : ℕ) (s : List UInt8) : column n (s.take n) = column n s := by
  rw [column, column, List.take_take, min_self, List.length_take]
  congr 2
  omega

theorem getrec_of_readAt {b : List UInt8} {start length : ℕ} {s : List UInt8}
    (hlen : s.length ≤ length) (hs : ∀ c ∈ s, endsField c = false) (hnul : (0 : UInt8) ∉ s)
    (h : readAt b start length = column length s) : getrec b start length = s := by
  rw [getrec, h, takeWhile_column hlen hs]
  exact List.takeWhile_eq_self_iff.mpr fun c hc ↦ by
    simpa using fun h0 : c = 0 ↦ hnul (h0 ▸ hc)

end Synchronet.Sbbs3
