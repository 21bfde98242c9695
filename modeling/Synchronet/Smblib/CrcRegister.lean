import Synchronet.Lib.ShiftRegister
import Synchronet.Lib.Words
import Synchronet.Smblib.Crc

/-!
# The checksums as registers

A turn of `ucrc16` or of `ucrc32` through the table is eight turns of a shift register, so that
every burst as wide as the checksum changes it.
-/

namespace Synchronet.Smblib

open ShiftRegister

/-- `0x1021` is taken from the highest bit on. -/
def reg16 : Register 16 := msbFirst 0x1021#16 (by decide)

/-- `0xedb88320` is taken from the lowest bit on. -/
def reg32 : Register 32 := lsbFirst 0xedb88320#32 (by decide)

def msbBits (b : UInt8) : List Bool := (List.range 8).map b.toBitVec.getMsbD

def lsbBits (b : UInt8) : List Bool := (List.range 8).map b.toBitVec.getLsbD

theorem reg16_byte : ∀ b : UInt8,
    reg16.pack (msbBits b) 0 = (b.toUInt16 <<< 8).toBitVec ∧
      reg16.next^[8] (b.toUInt16 <<< 8).toBitVec = (crc16tbl.getD b.toNat 0).toBitVec ∧
      reg16.next^[8] b.toUInt16.toBitVec = (b.toUInt16 <<< 8).toBitVec :=
  Words.forall_uint8 (by decide +kernel)

theorem reg32_byte : ∀ b : UInt8,
    reg32.pack (lsbBits b) 0 = b.toUInt32.toBitVec ∧
      reg32.next^[8] b.toUInt32.toBitVec = (crc32tbl.getD b.toNat 0).toBitVec :=
  Words.forall_uint8 (by decide +kernel)

theorem getLsbD_lowByte16 (crc : UInt16) (i : ℕ) :
    crc.toUInt8.toUInt16.toBitVec.getLsbD i = (decide (i < 8) && crc.toBitVec.getLsbD i) := by
  rw [UInt8.toBitVec_toUInt16, UInt16.toBitVec_toUInt8, BitVec.getLsbD_setWidth,
    BitVec.getLsbD_setWidth]
  by_cases hi : i < 8
  · simp [hi, show i < 16 by omega]
  · simp [hi]

theorem getLsbD_lowByte32 (crc : UInt32) (i : ℕ) :
    crc.toUInt8.toUInt32.toBitVec.getLsbD i = (decide (i < 8) && crc.toBitVec.getLsbD i) := by
  rw [UInt8.toBitVec_toUInt32, UInt32.toBitVec_toUInt8, BitVec.getLsbD_setWidth,
    BitVec.getLsbD_setWidth]
  by_cases hi : i < 8
  · simp [hi, show i < 32 by omega]
  · simp [hi]

theorem and_255 (n : ℕ) : n &&& 255 = n % 256 := Nat.and_two_pow_sub_one_eq_mod n 8

theorem getLsbD_highByte16 (c : UInt16) (i : ℕ) :
    (c <<< 8).toBitVec.getLsbD i = (decide (i < 16) && (!decide (i < 8) &&
      c.toBitVec.getLsbD (i - 8))) := by
  have hshift : (c <<< 8).toBitVec = c.toBitVec <<< 8 := rfl
  rw [hshift, BitVec.getLsbD_shiftLeft, Bool.and_assoc]

theorem ucrc16_toBitVec (ch : UInt8) (crc : UInt16) :
    (ucrc16 ch crc).toBitVec = reg16.feed (msbBits ch) crc.toBitVec := by
  have hsplit : crc.toBitVec ^^^ (ch.toUInt16 <<< 8).toBitVec =
      (((crc >>> 8).toUInt8 ^^^ ch).toUInt16 <<< 8).toBitVec ^^^ crc.toUInt8.toUInt16.toBitVec := by
    have hshift : (crc >>> 8).toBitVec = crc.toBitVec >>> 8 := rfl
    apply BitVec.eq_of_getLsbD_eq
    intro i hi
    rw [BitVec.getLsbD_xor, BitVec.getLsbD_xor, getLsbD_lowByte16, getLsbD_highByte16,
      getLsbD_highByte16, UInt8.toUInt16_xor, UInt16.toBitVec_xor, BitVec.getLsbD_xor,
      getLsbD_lowByte16, hshift, BitVec.getLsbD_ushiftRight]
    by_cases hlow : i < 8
    · simp [hlow]
    · have hlt : i - 8 < 8 := by omega
      have hadd : 8 + (i - 8) = i := by omega
      rw [hadd]
      simp [hlow, hi, hlt]
  have hindex : (((crc >>> 8) &&& 0xff) ^^^ ch.toUInt16).toNat =
      ((crc >>> 8).toUInt8 ^^^ ch).toNat := by
    simp [and_255]
  have hlow : crc.toUInt8.toUInt16 <<< 8 = crc <<< 8 := by
    apply UInt16.toBitVec_inj.mp
    apply BitVec.eq_of_getLsbD_eq
    intro i hi
    rw [getLsbD_highByte16, getLsbD_highByte16, getLsbD_lowByte16]
    have hlt : i - 8 < 8 := by omega
    simp [hlt]
  have hlen : (msbBits ch).length = 8 := by simp [msbBits]
  rw [reg16.feed_eq_pack _ _ (by simp [msbBits]), (reg16_byte _).1, hsplit, hlen, reg16.iterate_xor,
    (reg16_byte _).2.1, (reg16_byte _).2.2, ucrc16, hindex, ← hlow]
  rfl

theorem ucrc32_toBitVec (ch : UInt8) (crc : UInt32) :
    (ucrc32 ch crc).toBitVec = reg32.feed (lsbBits ch) crc.toBitVec := by
  have hsplit : crc.toBitVec ^^^ ch.toUInt32.toBitVec =
      (crc.toUInt8 ^^^ ch).toUInt32.toBitVec ^^^ (crc.toBitVec >>> 8 <<< 8) := by
    apply BitVec.eq_of_getLsbD_eq
    intro i hi
    rw [UInt8.toUInt32_xor, UInt32.toBitVec_xor, BitVec.getLsbD_xor, BitVec.getLsbD_xor,
      BitVec.getLsbD_xor, getLsbD_lowByte32]
    by_cases hlow : i < 8
    · simp [hlow, hi]
    · have hadd : 8 + (i - 8) = i := by omega
      simp [hlow, hi, hadd, Bool.xor_comm]
  have hindex : ((crc ^^^ ch.toUInt32) &&& 0xff).toNat = (crc.toUInt8 ^^^ ch).toNat := by
    have hxor : crc.toUInt8 ^^^ ch = (crc ^^^ ch.toUInt32).toUInt8 := by simp
    rw [hxor, UInt32.toNat_and, UInt32.toNat_toUInt8]
    exact and_255 _
  have hhigh : reg32.next^[8] (crc.toBitVec >>> 8 <<< 8) = crc.toBitVec >>> 8 <<< 8 >>> 8 := by
    apply iterate_lsbFirst
    intro i hi
    simp [hi]
  have hback : crc.toBitVec >>> 8 <<< 8 >>> 8 = crc.toBitVec >>> 8 := by
    apply BitVec.eq_of_getLsbD_eq
    intro i hi
    have hadd : 8 + (8 + i - 8) = 8 + i := by omega
    simp only [BitVec.getLsbD_ushiftRight, BitVec.getLsbD_shiftLeft, hadd]
    by_cases hlt : 8 + i < 32
    · simp [hlt]
    · simp [BitVec.getLsbD_of_ge crc.toBitVec (8 + i) (by omega)]
  have hlen : (lsbBits ch).length = 8 := by simp [lsbBits]
  rw [reg32.feed_eq_pack _ _ (by simp [lsbBits]), (reg32_byte _).1, hsplit, hlen, reg32.iterate_xor,
    (reg32_byte _).2, hhigh, hback, ucrc32, hindex]
  rfl

/-- The bits of a message in the order in which the checksum takes them. -/
theorem foldl_ucrc16 (p : List UInt8) (crc : UInt16) :
    (p.foldl (fun crc c ↦ ucrc16 c crc) crc).toBitVec =
      reg16.feed (p.flatMap msbBits) crc.toBitVec := by
  induction p generalizing crc with
  | nil => rfl
  | cons c p ih => rw [List.foldl_cons, ih, ucrc16_toBitVec, List.flatMap_cons, reg16.feed_append]

theorem foldl_ucrc32 (p : List UInt8) (crc : UInt32) :
    (p.foldl (fun crc c ↦ ucrc32 c crc) crc).toBitVec =
      reg32.feed (p.flatMap lsbBits) crc.toBitVec := by
  induction p generalizing crc with
  | nil => rfl
  | cons c p ih => rw [List.foldl_cons, ih, ucrc32_toBitVec, List.flatMap_cons, reg32.feed_append]

theorem msbBits_bytes (crc : UInt16) :
    [(crc >>> 8).toUInt8, crc.toUInt8].flatMap msbBits = reg16.bits crc.toBitVec := by
  have hshift : (crc >>> 8).toBitVec = crc.toBitVec >>> 8 := rfl
  simp [msbBits, Register.bits, reg16, msbFirst, List.range_succ, BitVec.getMsbD, hshift]

theorem lsbBits_bytes (crc : UInt32) :
    [crc.toUInt8, (crc >>> 8).toUInt8, (crc >>> 16).toUInt8, (crc >>> 24).toUInt8].flatMap
      lsbBits = reg32.bits crc.toBitVec := by
  have h₈ : (crc >>> 8).toBitVec = crc.toBitVec >>> 8 := rfl
  have h₁₆ : (crc >>> 16).toBitVec = crc.toBitVec >>> 16 := rfl
  have h₂₄ : (crc >>> 24).toBitVec = crc.toBitVec >>> 24 := rfl
  simp [lsbBits, Register.bits, reg32, lsbFirst, List.range_succ, h₈, h₁₆, h₂₄]

end Synchronet.Smblib
