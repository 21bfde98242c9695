import Synchronet.Sbbs3.ZmodemData

/-!
# ZMODEM headers (zmodem.c)

A header is the type of a frame and four bytes.  It is sent in hexadecimal digits, or in
binary with a checksum of 16 or 32 bits.
-/

namespace Synchronet.Sbbs3

open Words Smblib

def lf : UInt8 := 0x0a

def zsinit : UInt8 := 0x02
def zack : UInt8 := 0x03
def zfile : UInt8 := 0x04
def znak : UInt8 := 0x06
def zfin : UInt8 := 0x08
def zdata : UInt8 := 0x0a
def zcrc : UInt8 := 0x0d
def zfreecnt : UInt8 := 0x11
def zcommand : UInt8 := 0x12

def hdrlen : ℕ := 5

def frameok : ℤ := 1
def endofframe : ℤ := 2
def invalidsubpkt : ℤ := -6

/-- Set in the type of a frame whose subpacket was not received. -/
def badsubpkt : UInt8 := 0x80

/-! ## Sending -/

def headerCrc16 (p : List UInt8) : UInt16 := p.foldl (fun crc c ↦ ucrc16 c crc) 0

def headerCrc32 (p : List UInt8) : UInt32 := ~~~ p.foldl (fun crc c ↦ ucrc32 c crc) 0xffffffff

/-- `ucrc16` in an `unsigned int`. -/
def ucrc16Wide (ch : UInt8) (crc : UInt32) : UInt32 :=
  (crc16tbl.getD (((crc >>> 8) &&& 0xff) ^^^ ch.toUInt32).toNat 0).toUInt32 ^^^ (crc <<< 8)

def xdigit (n : UInt8) : UInt8 :=
  ([0x30, 0x31, 0x32, 0x33, 0x34, 0x35, 0x36, 0x37, 0x38, 0x39,
    0x61, 0x62, 0x63, 0x64, 0x65, 0x66] : List UInt8).getD n.toNat 0

def zmodemSendHex (zm : Zmodem) (val : UInt8) : Zmodem :=
  zmodemSendRaw (zmodemSendRaw zm (xdigit (val >>> 4))) (xdigit (val &&& 0xf))

def zmodemSendPaddedZdle (zm : Zmodem) : Zmodem :=
  zmodemSendRaw (zmodemSendRaw (zmodemSendRaw zm zpad) zpad) zdle

def zmodemSendHexHeader (zm : Zmodem) (p : List UInt8) : Zmodem :=
  let zm := zmodemSendRaw (zmodemSendPaddedZdle zm) zhex
  let zm := (crc16Bytes (headerCrc16 p)).foldl zmodemSendHex (p.foldl zmodemSendHex zm)
  let zm := zmodemSendRaw (zmodemSendRaw zm cr) lf
  if p.headD 0 ≠ zack ∧ p.headD 0 ≠ zfin then zmodemSendRaw zm xon else zm

def zmodemSendBin32Header (zm : Zmodem) (p : List UInt8) : Zmodem :=
  (crc32Bytes (headerCrc32 p)).foldl zmodemTx
    (p.foldl zmodemTx (zmodemSendRaw (zmodemSendPaddedZdle zm) zbin32))

/-- The checksum is kept in an `unsigned int`, of which the lower half is sent. -/
def zmodemSendBin16Header (zm : Zmodem) (p : List UInt8) : Zmodem :=
  let crc := p.foldl (fun crc c ↦ ucrc16Wide c crc) 0
  [(crc >>> 8).toUInt8, crc.toUInt8].foldl zmodemTx
    (p.foldl zmodemTx (zmodemSendRaw (zmodemSendPaddedZdle zm) zbin))

def zmodemSendBinHeader (zm : Zmodem) (p : List UInt8) : Zmodem :=
  if zm.canFcs32 ∧ ¬ zm.wantFcs16 then zmodemSendBin32Header zm p else zmodemSendBin16Header zm p

def zmodemSendPosHeader (zm : Zmodem) (type : UInt8) (pos : UInt32) (hex : Bool) : Zmodem :=
  let header := type :: crc32Bytes pos
  if hex then zmodemSendHexHeader zm header else zmodemSendBinHeader zm header

def zmodemSendAck (zm : Zmodem) (pos : UInt32) : Zmodem := zmodemSendPosHeader zm zack pos true

def zmodemSendZnak (zm : Zmodem) : Zmodem := zmodemSendPosHeader zm znak 0 true

/-! ## Receiving the bytes -/

def zmodemRecvNibble (zm : Zmodem) : ℤ × Zmodem :=
  let r := zmodemRx zm
  if r.1 < 0 then r
  else if 0x39 < r.1 then
    if r.1 < 0x61 ∨ 0x66 < r.1 then (-1, r.2) else (r.1 - (0x61 - 10), r.2)
  else if r.1 < 0x30 then (-1, r.2)
  else (r.1 - 0x30, r.2)

def zmodemRecvHex (zm : Zmodem) : ℤ × Zmodem :=
  let r₁ := zmodemRecvNibble zm
  if r₁.1 < 0 then r₁
  else
    let r₀ := zmodemRecvNibble r₁.2
    if r₀.1 < 0 then r₀ else (r₁.1 * 16 + r₀.1, r₀.2)

/-- The loop over the bytes of a header, behind the bytes `p`; each one is stored as it
comes.  It ends with `false` when one is missing. -/
def recvHeaderBytes (recv : Zmodem → ℤ × Zmodem) :
    ℕ → Zmodem → List UInt8 → Bool × List UInt8 × Zmodem
  | 0, zm, p => (true, p, zm)
  | n + 1, zm, p =>
      let r := recv zm
      if r.1 < 0 then (false, p, r.2)
      else
        let c := UInt8.ofInt r.1
        recvHeaderBytes recv n
          { r.2 with rxdHeader := r.2.rxdHeader.setIfInBounds p.length c } (p ++ [c])

/-- What follows the header, in each encoding. -/
def recvBin16Crc (p : List UInt8) (zm : Zmodem) : Bool × Zmodem :=
  let r := rxdCrc16 zm
  if r.1 ≠ headerCrc16 p then (false, r.2) else (true, { r.2 with rxdHeaderLen := 5 })

def recvHexCrc (p : List UInt8) (zm : Zmodem) : Bool × Zmodem :=
  let r₁ := zmodemRecvHex zm
  if r₁.1 < 0 then (false, r₁.2)
  else
    let r₀ := zmodemRecvHex r₁.2
    if r₀.1 < 0 then (false, r₀.2)
    else if join16 (UInt16.ofInt r₁.1) (UInt16.ofInt r₀.1) ≠ headerCrc16 p then (false, r₀.2)
    else
      -- the end of the line is dropped
      let r := zmodemRx { r₀.2 with rxdHeaderLen := 5 }
      if r.1 = cr.toNat then (true, (zmodemRx r.2).2) else (true, r.2)

def recvBin32Crc (p : List UInt8) (zm : Zmodem) : Bool × Zmodem :=
  let r := rxdCrc32 zm
  if r.1 ≠ headerCrc32 p then (false, r.2) else (true, { r.2 with rxdHeaderLen := 5 })

def zmodemRecvBin16Header (zm : Zmodem) : Bool × Zmodem :=
  match recvHeaderBytes zmodemRx hdrlen zm [] with
  | (false, _, zm) => (false, zm)
  | (true, p, zm) => recvBin16Crc p zm

def zmodemRecvHexHeader (zm : Zmodem) : Bool × Zmodem :=
  match recvHeaderBytes zmodemRecvHex hdrlen zm [] with
  | (false, _, zm) => (false, zm)
  | (true, p, zm) => recvHexCrc p zm

/-- Where the other two give up, this one returns `TRUE`. -/
def zmodemRecvBin32Header (zm : Zmodem) : Bool × Zmodem :=
  match recvHeaderBytes zmodemRx hdrlen zm [] with
  | (false, _, zm) => (true, zm)
  | (true, p, zm) => recvBin32Crc p zm

/-! ## Receiving a header -/

def zmodemRecvData (zm : Zmodem) (maxlen : ℕ) (ack : Bool) : ℤ × List UInt8 × Zmodem :=
  let r := if zm.receive32bitData then zmodemRecvData32 zm maxlen else zmodemRecvData16 zm maxlen
  let acked := if ack then zmodemSendAck r.2.2 r.2.2.ackFilePos else r.2.2
  if r.1 ≤ 0 then r
  else if r.1 = zcrcg.toNat then (frameok, r.2.1, r.2.2)
  else if r.1 = zcrce.toNat then (endofframe, r.2.1, r.2.2)
  else if r.1 = zcrcq.toNat then (frameok, r.2.1, acked)
  else if r.1 = zcrcw.toNat then (endofframe, r.2.1, acked)
  else (invalidsubpkt, r.2.1, r.2.2)

def zmodemRecvSubpacket (zm : Zmodem) (ack : Bool) : Bool × Zmodem :=
  let r := zmodemRecvData zm 8192 ack
  if r.1 ≠ frameok ∧ r.1 ≠ endofframe then (false, zmodemSendZnak r.2.2) else (true, r.2.2)

/-- The loop that waits for a `ZPAD`, and the result that it returns with. -/
def skipToZpad : List UInt8 → Zmodem → Option ℤ × Zmodem
  | [], zm => (some (if zm.cancelled then zcan else timeout), zm)
  | c :: rest, zm =>
      let zm := zm.took c rest
      if zm.cancelled then (some zcan, zm)
      else if c = zpad then (none, zm)
      else skipToZpad rest zm

/-- The end of a round after a known style of header. -/
def endHeader (errors fcs32 : Bool) (r : Bool × Zmodem) : Option ℤ × Zmodem :=
  if ¬ r.1 then (some invhdr, r.2)
  else
    let zm := { r.2 with receive32bitData := fcs32 }
    if errors ∧ zm.rxdHeaderLen = 0 then (some invhdr, zm) else (none, zm)

/-- The switch over the style of the header. -/
def readStyle (errors : Bool) (r : ℤ × Zmodem) : Option ℤ × Zmodem :=
  if r.1 = zbin.toNat then endHeader errors false (zmodemRecvBin16Header r.2)
  else if r.1 = zhex.toNat then endHeader errors false (zmodemRecvHexHeader r.2)
  else if r.1 = zbin32.toNat then endHeader errors true (zmodemRecvBin32Header r.2)
  else if r.1 < 0 then (some r.1, r.2)
  else if errors then (some invhdr, r.2)
  else (none, r.2)

/-- One round of the outer loop: a result to return, or the condition of the loop is
next. -/
def headerRound (errors : Bool) (zm : Zmodem) : Option ℤ × Zmodem :=
  match skipToZpad zm.input zm with
  | (some c, zm) => (some c, zm)
  | (none, zm) =>
      let r := zmodemRecvRaw zm
      if r.1 < 0 then (some r.1, r.2)
      else
        let r := if r.1 = zpad.toNat then zmodemRecvRaw r.2 else r
        if r.1 < 0 then (some r.1, r.2)
        else if r.1 ≠ zdle.toNat then (none, r.2)
        else readStyle errors (zmodemRx r.2)

/-- The outer loop.  Every round but the last takes a byte from the line. -/
def headerSearch (errors : Bool) : ℕ → Zmodem → Option ℤ × Zmodem
  | 0, zm => (some timeout, zm)
  | fuel + 1, zm =>
      match headerRound errors zm with
      | (some c, zm) => (some c, zm)
      | (none, zm) =>
          if zm.cancelled then (some zcan, zm)
          else if zm.rxdHeaderLen = 0 then headerSearch errors fuel zm
          else (none, zm)

/-- The result for a frame that starts with a subpacket. -/
def subpktResult (type : UInt8) (r : Bool × Zmodem) : ℤ × Zmodem :=
  ((if r.1 then type else type ||| badsubpkt).toNat, r.2)

/-- What is done with a valid header.  The free space comes from the file system. -/
def headerDone (freeSpace : UInt32) (zm : Zmodem) : ℤ × Zmodem :=
  let type := zm.rxdHeader[0]
  let pos := join32 zm.rxdHeader[1].toUInt32 zm.rxdHeader[2].toUInt32 zm.rxdHeader[3].toUInt32
    zm.rxdHeader[4].toUInt32
  let zm := { zm with rxdHeaderPos := pos }
  if type = zcrc then (type.toNat, { zm with crcRequest := pos })
  else if type = zdata then (type.toNat, { zm with ackFilePos := pos })
  else if type = zfile then
    subpktResult type (zmodemRecvSubpacket { zm with ackFilePos := 0 } false)
  else if type = zsinit ∨ type = zcommand then subpktResult type (zmodemRecvSubpacket zm true)
  else if type = zfreecnt then (type.toNat, zmodemSendPosHeader zm zack freeSpace true)
  else (type.toNat, zm)

def zmodemRecvHeaderRaw (freeSpace : UInt32) (zm : Zmodem) (errors : Bool) : ℤ × Zmodem :=
  match headerSearch errors (zm.input.length + 1) { zm with rxdHeaderLen := 0 } with
  | (some c, zm) => (c, zm)
  | (none, zm) => headerDone freeSpace zm

end Synchronet.Sbbs3
