import Synchronet.Smblib.CrcRegister
import Synchronet.Sbbs3.Xmodem
import Synchronet.Sbbs3.ZmodemData

/-!
# Bursts on the line

A block of XMODEM or a subpacket of ZMODEM in which the line has changed some bits next to each
other, no more than the checksum has, is refused by the receiver: the checksum may be hit as well.
-/

namespace Synchronet.Sbbs3

open ShiftRegister Smblib Words

namespace Xmodem

theorem bytes_join16 (hi lo : UInt8) :
    [(join16 hi.toUInt16 lo.toUInt16 >>> 8).toUInt8, (join16 hi.toUInt16 lo.toUInt16).toUInt8] =
      [hi, lo] := by
  rw [join16_hi, join16_lo, UInt8.toUInt8_toUInt16, UInt8.toUInt8_toUInt16]

theorem calcCrc_toBitVec (block : List UInt8) :
    (calcCrc block).toBitVec = reg16.feed (block.flatMap msbBits) 0#16 := foldl_ucrc16 block 0

theorem checks_burst {block block' : List UInt8} {hi lo : UInt8}
    (h : Burst 16 ((block ++ checkBytes true block).flatMap msbBits)
      ((block' ++ [hi, lo]).flatMap msbBits)) (input : List Getcom) :
    checks true block' (some hi :: some lo :: input) = false := by
  have hsent : checkBytes true block =
      [(calcCrc block >>> 8).toUInt8, (calcCrc block).toUInt8] := rfl
  rw [List.flatMap_append, List.flatMap_append, hsent, ← bytes_join16 hi lo, msbBits_bytes,
    msbBits_bytes] at h
  have hne := reg16.detects 0#16 h (r := 0#16) (by simp [calcCrc_toBitVec])
  rw [BitVec.xor_zero, ← calcCrc_toBitVec] at hne
  have hword : join16 hi.toUInt16 lo.toUInt16 ≠ calcCrc block' :=
    fun he ↦ hne (congrArg UInt16.toBitVec he)
  simpa [checks, getcom, Getcom.word] using hword

/-- A block of either size is refused when a burst has hit it or its checksum. -/
theorem xmodemGetBlock_burst {xm : Settings} {expected : ℕ} {eot can : Bool}
    {block block' : List UInt8} {start num inv hi lo : UInt8} {input : List Getcom}
    (hstart : start = SOH ∧ block'.length = xmodemMinBlockSize ∨
      start = STX ∧ block'.length = xmodemMaxBlockSize)
    (h : Burst 16 ((block ++ checkBytes true block).flatMap msbBits)
      ((block' ++ [hi, lo]).flatMap msbBits)) :
    xmodemGetBlockTurn xm true expected eot can
      (some start :: some num :: some inv :: (block'.map some ++ some hi :: some lo :: input)) =
        .ret .failure := by
  have hbody : getBlockBody true expected block'.length
      (some num :: some inv :: (block'.map some ++ some hi :: some lo :: input)) =
        .ret .failure := by
    simp [getBlockBody, readBytes, readBytes_map_some, checks_burst h]
  have hno : STX ≠ SOH := by decide
  rcases hstart with ⟨rfl, hlen⟩ | ⟨rfl, hlen⟩
  · rw [hlen] at hbody
    simp [xmodemGetBlockTurn, getcom, hbody]
  · rw [hlen] at hbody
    simp [xmodemGetBlockTurn, getcom, hbody, hno]

/-- Two bits of the first byte. -/
theorem xmodemGetBlock_burst_first :
    xmodemGetBlockTurn ⟨10, 128, 1024, true, 0⟩ true 1 false false
      (some SOH :: some 1 :: some 0xfe ::
        ((0x18 :: List.replicate 127 0).map some ++ [some 0, some 0])) = .ret .failure := by
  have hcheck : checkBytes true (0 :: List.replicate 127 0) = [0, 0] := by decide +kernel
  have hburst : Burst 16
      (((0 :: List.replicate 127 0 : List UInt8) ++
        checkBytes true (0 :: List.replicate 127 0)).flatMap msbBits)
      (((0x18 :: List.replicate 127 0 : List UInt8) ++ [0, 0]).flatMap msbBits) := by
    rw [hcheck]
    exact ⟨[], msbBits 0, msbBits 0x18, ((List.replicate 127 0 : List UInt8) ++ [0, 0]).flatMap
      msbBits, rfl, rfl, rfl, by decide, by decide⟩
  exact xmodemGetBlock_burst (.inl ⟨rfl, by simp; rfl⟩) hburst

end Xmodem

def Fcs.width : Fcs → ℕ
  | .fcs16 => 16
  | .fcs32 => 32

/-- The bits of a byte in the order in which the checksum takes them. -/
def Fcs.bits : Fcs → UInt8 → List Bool
  | .fcs16 => msbBits
  | .fcs32 => lsbBits

/-- The bytes of the checksum that is read. -/
def rxdCrcBytes (w : Fcs) (zm : Zmodem) : List UInt8 :=
  match w with
  | .fcs16 => crc16Bytes (rxdCrc16 zm).1
  | .fcs32 => crc32Bytes (rxdCrc32 zm).1

theorem dataCrc16_toBitVec (t : UInt8) (p : List UInt8) :
    (dataCrc16 t p).toBitVec = reg16.feed ((p ++ [t]).flatMap msbBits) 0#16 := by
  have h := foldl_ucrc16 (p ++ [t]) 0
  rw [List.foldl_append] at h
  exact h

theorem dataCrc32_toBitVec (t : UInt8) (p : List UInt8) :
    (dataCrc32 t p).toBitVec =
      reg32.feed ((p ++ [t]).flatMap lsbBits) (BitVec.allOnes 32) ^^^ BitVec.allOnes 32 := by
  have h := foldl_ucrc32 (p ++ [t]) 0xffffffff
  rw [List.foldl_append] at h
  have hfeed : (ucrc32 t (p.foldl (fun crc c ↦ ucrc32 c crc) 0xffffffff)).toBitVec =
      reg32.feed ((p ++ [t]).flatMap lsbBits) (BitVec.allOnes 32) := h
  rw [dataCrc32, UInt32.toBitVec_not, hfeed, BitVec.xor_allOnes]

theorem checkDataCrc_burst {w : Fcs} {zm : Zmodem} {p p' : List UInt8} {t t' : UInt8}
    (h : Burst w.width ((p ++ [t] ++ dataCrcBytes w t p).flatMap w.bits)
      ((p' ++ [t'] ++ rxdCrcBytes w zm).flatMap w.bits)) :
    (checkDataCrc w zm t' p').1 = false := by
  cases w with
  | fcs16 =>
      have hbits : Burst 16
          ((p ++ [t]).flatMap msbBits ++ reg16.bits (dataCrc16 t p).toBitVec)
          ((p' ++ [t']).flatMap msbBits ++ reg16.bits (rxdCrc16 zm).1.toBitVec) := by
        rw [← msbBits_bytes, ← msbBits_bytes, ← List.flatMap_append, ← List.flatMap_append]
        exact h
      have hne := reg16.detects (r := 0#16) 0#16 hbits
        (by rw [BitVec.xor_zero, dataCrc16_toBitVec])
      rw [BitVec.xor_zero, ← dataCrc16_toBitVec] at hne
      have hcrc : (rxdCrc16 zm).1 ≠ dataCrc16 t' p' := fun he ↦ hne (congrArg _ he)
      simp [checkDataCrc, hcrc]
  | fcs32 =>
      have hbits : Burst 32
          ((p ++ [t]).flatMap lsbBits ++ reg32.bits (dataCrc32 t p).toBitVec)
          ((p' ++ [t']).flatMap lsbBits ++ reg32.bits (rxdCrc32 zm).1.toBitVec) := by
        rw [← lsbBits_bytes, ← lsbBits_bytes, ← List.flatMap_append, ← List.flatMap_append]
        exact h
      have hne := reg32.detects (BitVec.allOnes 32) hbits (dataCrc32_toBitVec t p)
      rw [← dataCrc32_toBitVec] at hne
      have hcrc : (rxdCrc32 zm).1 ≠ dataCrc32 t' p' := fun he ↦ hne (congrArg _ he)
      simp [checkDataCrc, hcrc]

/-- A subpacket of either kind is refused when a burst has hit its data, its type or its
checksum. -/
theorem recvData_burst {w : Fcs} {zm zm' : Zmodem} {maxlen : ℕ} {p p' : List UInt8} {t t' : UInt8}
    (hrecv : recvBytes maxlen zm [] = (.ok t', p', zm'))
    (h : Burst w.width ((p ++ [t] ++ dataCrcBytes w t p).flatMap w.bits)
      ((p' ++ [t'] ++ rxdCrcBytes w zm').flatMap w.bits)) :
    (recvData w zm maxlen).1 = crcfailed := by
  simp [recvData, hrecv, checkDataCrc_burst h]

/-- One bit of the only byte. -/
theorem recvData_burst_one :
    (recvData .fcs32 { input := [0x43, zdle, 0x68, 0xd1, 0x85, 0xd2, 0xeb] } 1024).1 =
      crcfailed := by
  have hrecv : recvBytes 1024 { input := [0x43, zdle, 0x68, 0xd1, 0x85, 0xd2, 0xeb] } [] =
      (.ok 0x68, [0x43], { input := [0xd1, 0x85, 0xd2, 0xeb] }) := rfl
  have hsent : dataCrcBytes .fcs32 0x68 [0x41] = [0xd1, 0x85, 0xd2, 0xeb] := by decide
  have hread : rxdCrcBytes .fcs32 { input := [0xd1, 0x85, 0xd2, 0xeb] } =
      [0xd1, 0x85, 0xd2, 0xeb] := by decide
  have hburst : Burst 32 (([0x41] ++ [0x68] ++ dataCrcBytes .fcs32 0x68 [0x41]).flatMap lsbBits)
      (([0x43] ++ [0x68] ++ rxdCrcBytes .fcs32 { input := [0xd1, 0x85, 0xd2, 0xeb] }).flatMap
        lsbBits) := by
    rw [hsent, hread]
    exact ⟨[], lsbBits 0x41, lsbBits 0x43, ([0x68, 0xd1, 0x85, 0xd2, 0xeb] : List UInt8).flatMap
      lsbBits, rfl, rfl, rfl, by decide, by decide⟩
  exact recvData_burst hrecv hburst

end Synchronet.Sbbs3
