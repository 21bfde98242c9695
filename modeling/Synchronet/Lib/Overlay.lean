import Synchronet.Lib.Words

/-!
# Layouts that share their bytes

Memory is a byte for every place.  A field that is read has what was last written to it,
whatever was written to other places since.
-/

namespace Synchronet.Overlay

/-- A record of which several layouts share the bytes. -/
abbrev Bytes := ℕ → UInt8

def zeros : Bytes := fun _ ↦ 0

/-- The number in two bytes, the low one first. -/
def get16 (m : Bytes) (o : ℕ) : UInt16 :=
  Words.join16 (m (o + 1)).toUInt16 (m o).toUInt16

def put16 (o : ℕ) (v : UInt16) (m : Bytes) : Bytes := fun i ↦
  if i = o then v.toUInt8 else if i = o + 1 then (v >>> 8).toUInt8 else m i

def put8 (o : ℕ) (v : UInt8) (m : Bytes) : Bytes := fun i ↦ if i = o then v else m i

/-- `strncpy`: a string, and zeros behind it up to `n` bytes. -/
def putStr (o n : ℕ) (s : List UInt8) (m : Bytes) : Bytes := fun i ↦
  if o ≤ i ∧ i < o + n then s.getD (i - o) 0 else m i

variable (m : Bytes) {o o' n : ℕ}

theorem get16_congr {m m' : Bytes} (h₀ : m o = m' o) (h₁ : m (o + 1) = m' (o + 1)) :
    get16 m o = get16 m' o := by
  rw [get16, get16, h₀, h₁]

@[simp] theorem get16_zeros (o : ℕ) : get16 zeros o = 0 := by
  change Words.join16 (0 : UInt8).toUInt16 (0 : UInt8).toUInt16 = 0
  decide

@[simp] theorem get16_put16_self (o : ℕ) (v : UInt16) : get16 (put16 o v m) o = v := by
  have hlow : put16 o v m o = v.toUInt8 := if_pos rfl
  have hhigh : put16 o v m (o + 1) = (v >>> 8).toUInt8 := by simp [put16]
  rw [get16, hlow, hhigh, Words.join16_bytes]

theorem get16_put16_of_disjoint (v : UInt16) (h : o' + 2 ≤ o ∨ o + 2 ≤ o') :
    get16 (put16 o v m) o' = get16 m o' := by
  refine get16_congr ?_ ?_ <;> rw [put16, if_neg (by omega), if_neg (by omega)]

theorem get16_put8_of_disjoint (v : UInt8) (h : o' + 2 ≤ o ∨ o + 1 ≤ o') :
    get16 (put8 o v m) o' = get16 m o' := by
  refine get16_congr ?_ ?_ <;> rw [put8, if_neg (by omega)]

theorem get16_putStr_of_disjoint (s : List UInt8) (h : o' + 2 ≤ o ∨ o + n ≤ o') :
    get16 (putStr o n s m) o' = get16 m o' := by
  refine get16_congr ?_ ?_ <;> rw [putStr, if_neg (by omega)]

/-- Two bytes of a string that is read as a number. -/
theorem get16_putStr (s : List UInt8) (h : o ≤ o' ∧ o' + 2 ≤ o + n) :
    get16 (putStr o n s m) o' =
      Words.join16 (s.getD (o' + 1 - o) 0).toUInt16 (s.getD (o' - o) 0).toUInt16 := by
  have hlow : putStr o n s m o' = s.getD (o' - o) 0 := if_pos (by omega)
  have hhigh : putStr o n s m (o' + 1) = s.getD (o' + 1 - o) 0 := if_pos (by omega)
  rw [get16, hlow, hhigh]

end Synchronet.Overlay
