import Mathlib.Data.UInt

/-!
# Fixed-width words

Numbers that fit into a word survive the conversion to it, and a word is put together
from its bytes.
-/

namespace Synchronet.Words

theorem toNat_ofNat_uint32 {n : ℕ} (h : n < 2 ^ 32) : (UInt32.ofNat n).toNat = n :=
  UInt32.toNat_ofNat_of_lt' h

/-- A property of all bytes is checked on 256 numbers. -/
theorem forall_uint8 {p : UInt8 → Prop} (h : ∀ n < 256, p (UInt8.ofNat n)) (c : UInt8) : p c := by
  have := h c.toNat (UInt8.toNat_lt c)
  rwa [UInt8.ofNat_toNat] at this

/-- What holds of the members of a list is decided member by member, for words too. -/
instance (priority := high) decidableForallMem {α : Type*} {p : α → Prop} [DecidablePred p]
    (l : List α) : Decidable (∀ a ∈ l, p a) := List.decidableBAll p l

/-! ## Bytes as integers -/

@[simp] theorem uint8_ofInt_toNat (c : UInt8) : UInt8.ofInt (c.toNat : ℤ) = c :=
  forall_uint8 (p := fun c ↦ UInt8.ofInt (c.toNat : ℤ) = c) (by decide +kernel) c

@[simp] theorem uint16_ofInt_toNat (c : UInt8) : UInt16.ofInt (c.toNat : ℤ) = c.toUInt16 :=
  forall_uint8 (p := fun c ↦ UInt16.ofInt (c.toNat : ℤ) = c.toUInt16) (by decide +kernel) c

@[simp] theorem uint32_ofInt_toNat (c : UInt8) : UInt32.ofInt (c.toNat : ℤ) = c.toUInt32 :=
  forall_uint8 (p := fun c ↦ UInt32.ofInt (c.toNat : ℤ) = c.toUInt32) (by decide +kernel) c

theorem toUInt8_uint32_ofInt (r : ℤ) : (UInt32.ofInt r).toUInt8 = UInt8.ofInt r := by
  apply UInt8.toNat_inj.mp
  simp only [UInt32.ofInt, UInt8.ofInt, UInt32.toNat_toUInt8, UInt32.toNat_ofNat',
    UInt8.toNat_ofNat']
  omega

/-! ## Words and their bytes -/

/-- The word whose bytes are the low bytes of `r₀`, …, `r₃`, if no larger number overlaps them. -/
def join32 (r₀ r₁ r₂ r₃ : UInt32) : UInt32 := r₀ ||| r₁ <<< 8 ||| r₂ <<< 16 ||| r₃ <<< 24

/-- The same for two bytes, the higher one first. -/
def join16 (r₀ r₁ : UInt16) : UInt16 := r₀ <<< 8 ||| r₁

/-- Words with the same four bytes. -/
theorem uint32_ext {x y : UInt32} (h0 : x.toUInt8 = y.toUInt8)
    (h1 : (x >>> 8).toUInt8 = (y >>> 8).toUInt8) (h2 : (x >>> 16).toUInt8 = (y >>> 16).toUInt8)
    (h3 : (x >>> 24).toUInt8 = (y >>> 24).toUInt8) : x = y := by
  have hbits : ∀ {a b : UInt32}, a.toUInt8 = b.toUInt8 → ∀ j < 8,
      a.toBitVec.getLsbD j = b.toBitVec.getLsbD j := by
    intro a b hab j hj
    have := congrArg (fun c : UInt8 ↦ c.toBitVec.getLsbD j) hab
    simpa [hj] using this
  apply UInt32.toBitVec_inj.mp
  apply BitVec.eq_of_getLsbD_eq
  intro i hi
  have g0 := hbits h0
  have g1 := hbits h1 (i - 8)
  have g2 := hbits h2 (i - 16)
  have g3 := hbits h3 (i - 24)
  simp at g1 g2 g3
  by_cases c0 : i < 8
  · exact g0 i c0
  by_cases c1 : i < 16
  · have := g1 (by omega)
    rwa [show 8 + (i - 8) = i by omega] at this
  by_cases c2 : i < 24
  · have := g2 (by omega)
    rwa [show 16 + (i - 16) = i by omega] at this
  · have := g3 (by omega)
    rwa [show 24 + (i - 24) = i by omega] at this

section Join32

variable (b₀ b₁ b₂ : UInt8) (r₀ r₁ r₂ r₃ : UInt32)

/-- A byte has no higher bits. -/
theorem getLsbD_byte (b : UInt8) {i : ℕ} (h : 8 ≤ i) : b.toBitVec.getLsbD i = false :=
  BitVec.getLsbD_of_ge _ _ h

theorem join32_byte0 : (join32 r₀ r₁ r₂ r₃).toUInt8 = r₀.toUInt8 := by
  apply UInt8.toBitVec_inj.mp
  apply BitVec.eq_of_getLsbD_eq
  intro i hi
  simp [join32]

theorem join32_byte1 : (join32 b₀.toUInt32 r₁ r₂ r₃ >>> 8).toUInt8 = r₁.toUInt8 := by
  apply UInt8.toBitVec_inj.mp
  apply BitVec.eq_of_getLsbD_eq
  intro i hi
  have h16 : 8 + i < 16 := by omega
  have h24 : 8 + i < 24 := by omega
  have h8 : ¬ 8 + i < 8 := by omega
  simp [join32, hi, h8, h16, h24, show 8 + i < 32 by omega]
  rfl

theorem join32_byte2 :
    (join32 b₀.toUInt32 b₁.toUInt32 r₂ r₃ >>> 16).toUInt8 = r₂.toUInt8 := by
  apply UInt8.toBitVec_inj.mp
  apply BitVec.eq_of_getLsbD_eq
  intro i hi
  have h24 : 16 + i < 24 := by omega
  have h₀ := getLsbD_byte b₀ (i := 16 + i) (by omega)
  have h₁ := getLsbD_byte b₁ (i := 16 + i - 8) (by omega)
  have h16 : ¬ 16 + i < 16 := by omega
  simp [join32, hi, h16, h24, h₀, h₁, show 16 + i < 32 by omega]
  rfl

theorem join32_byte3 :
    (join32 b₀.toUInt32 b₁.toUInt32 b₂.toUInt32 r₃ >>> 24).toUInt8 = r₃.toUInt8 := by
  apply UInt8.toBitVec_inj.mp
  apply BitVec.eq_of_getLsbD_eq
  intro i hi
  have h₀ := getLsbD_byte b₀ (i := 24 + i) (by omega)
  have h₁ := getLsbD_byte b₁ (i := 24 + i - 8) (by omega)
  have h₂ := getLsbD_byte b₂ (i := 24 + i - 16) (by omega)
  have h24 : ¬ 24 + i < 24 := by omega
  simp [join32, hi, h24, h₀, h₁, h₂, show 24 + i < 32 by omega]
  rfl
end Join32

/-- A word is put together from its bytes. -/
theorem join32_bytes (x : UInt32) : join32 x.toUInt8.toUInt32 (x >>> 8).toUInt8.toUInt32 
    (x >>> 16).toUInt8.toUInt32 (x >>> 24).toUInt8.toUInt32 = x := by
  apply uint32_ext
  · rw [join32_byte0, UInt8.toUInt8_toUInt32]
  · rw [join32_byte1, UInt8.toUInt8_toUInt32]
  · rw [join32_byte2, UInt8.toUInt8_toUInt32]
  · rw [join32_byte3, UInt8.toUInt8_toUInt32]


theorem uint16_ext {x y : UInt16} (h0 : x.toUInt8 = y.toUInt8)
    (h1 : (x >>> 8).toUInt8 = (y >>> 8).toUInt8) : x = y := by
  have hbits : ∀ {a b : UInt16}, a.toUInt8 = b.toUInt8 → ∀ j < 8,
      a.toBitVec.getLsbD j = b.toBitVec.getLsbD j := by
    intro a b hab j hj
    have := congrArg (fun c : UInt8 ↦ c.toBitVec.getLsbD j) hab
    simpa [hj] using this
  apply UInt16.toBitVec_inj.mp
  apply BitVec.eq_of_getLsbD_eq
  intro i hi
  have g0 := hbits h0 i
  have g1 := hbits h1 (i - 8)
  simp at g1
  by_cases c0 : i < 8
  · exact g0 c0
  · have := g1 (by omega)
    rwa [show 8 + (i - 8) = i by omega] at this

theorem join16_lo (r₀ : UInt16) (b₁ : UInt16) : (join16 r₀ b₁).toUInt8 = b₁.toUInt8 := by
  apply UInt8.toBitVec_inj.mp
  apply BitVec.eq_of_getLsbD_eq
  intro i hi
  simp [join16, hi]

theorem join16_hi (r₀ : UInt16) (b₁ : UInt8) :
    (join16 r₀ b₁.toUInt16 >>> 8).toUInt8 = r₀.toUInt8 := by
  apply UInt8.toBitVec_inj.mp
  apply BitVec.eq_of_getLsbD_eq
  intro i hi
  have h8 : ¬ 8 + i < 8 := by omega
  simp [join16, hi, h8, show 8 + i < 16 by omega]
  rfl

theorem join16_bytes (x : UInt16) : join16 (x >>> 8).toUInt8.toUInt16 x.toUInt8.toUInt16 = x := by
  apply uint16_ext
  · rw [join16_lo, UInt8.toUInt8_toUInt16]
  · rw [join16_hi, UInt8.toUInt8_toUInt16]

theorem toNat_join16 (a b : UInt8) :
    (join16 a.toUInt16 b.toUInt16).toNat = 256 * a.toNat + b.toNat := by
  have ha := a.toNat_lt
  have hb := b.toNat_lt
  have hshift : (a.toUInt16 <<< 8).toNat = a.toNat <<< 8 := by
    have hmod : a.toNat <<< 8 % 2 ^ 16 = a.toNat <<< 8 := by
      rw [Nat.shiftLeft_eq]
      omega
    simpa using hmod
  rw [join16, UInt16.toNat_or, hshift, UInt8.toNat_toUInt16,
    ← Nat.shiftLeft_add_eq_or_of_lt hb, Nat.shiftLeft_eq, Nat.mul_comm]

theorem join16_inj {a b c d : UInt8} :
    join16 a.toUInt16 b.toUInt16 = join16 c.toUInt16 d.toUInt16 ↔ a = c ∧ b = d := by
  rw [← UInt16.toNat_inj, toNat_join16, toNat_join16, ← UInt8.toNat_inj, ← UInt8.toNat_inj]
  have hb := b.toNat_lt
  have hd := d.toNat_lt
  omega

theorem join16_ones (r : UInt16) : join16 r (UInt16.ofInt (-1)) = 0xffff := by
  have hones : UInt16.ofInt (-1) = 0xffff := by decide
  have hor : ∀ x : UInt16, x ||| 0xffff = 0xffff := fun x ↦ by
    have := UInt16.or_neg_one (a := x)
    exact this
  rw [join16, hones, hor]

/-! ## Signed words as unsigned ones -/

theorem toNat_toUInt64 (x : Int64) : (x.toUInt64.toNat : ℤ) = x.toInt % 2 ^ 64 := by
  have h : x.toInt = (x.toUInt64.toNat : ℤ).bmod (2 ^ 64) := BitVec.toInt_eq_toNat_bmod _
  have hlt := x.toUInt64.toNat_lt
  have hmod : x.toInt % 2 ^ 64 = (x.toUInt64.toNat : ℤ) % 2 ^ 64 := by
    rw [h]
    exact Int.bmod_emod
  omega

theorem toInt_toInt64 (x : UInt64) : x.toInt64.toInt = (x.toNat : ℤ).bmod (2 ^ 64) :=
  BitVec.toInt_eq_toNat_bmod _

/-- The negation of a negative number, which the unsigned word can hold. -/
theorem toNat_toUInt64_neg {x : Int64} (h : x.toInt < 0) :
    ((-x).toUInt64.toNat : ℤ) = -x.toInt := by
  have hle := x.le_toInt
  have hmod : (-x.toInt).bmod (2 ^ 64) % 2 ^ 64 = -x.toInt % 2 ^ 64 := Int.bmod_emod
  rw [toNat_toUInt64, Int64.toInt_neg, hmod]
  omega

end Synchronet.Words
