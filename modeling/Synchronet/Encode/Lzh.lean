import Synchronet.Lib.Buffer
import Synchronet.Lib.LittleEndian
import Synchronet.Lib.Table

/-!
# LZH decoding (lzh.c)

`lzh_decode` reads codes of an adaptive Huffman tree, each a byte or the length of a
copy from the last 4096 bytes, and updates the tree after every code.  The arrays of
`lzh_t` are tables with checked access; `none` stands for an access behind the end of
one of them or of the output, and for a loop that does not end.
-/

namespace Synchronet.Encode

open LittleEndian

/-- Size of the string buffer. -/
abbrev lzhN : ℕ := 4096
/-- Size of the look-ahead buffer. -/
abbrev lzhF : ℕ := 60
abbrev lzhThreshold : ℕ := 2

/-- The character codes are `0, …, lzhNChar - 1`. -/
abbrev lzhNChar : ℕ := 256 - lzhThreshold + lzhF
/-- Size of the table of tree nodes. -/
abbrev lzhT : ℕ := lzhNChar * 2 - 1
/-- Root position. -/
abbrev lzhR : ℕ := lzhT - 1
abbrev maxFreq : ℕ := 0x8000

/-- The decoder tables for the upper 6 bits of a position. -/
def lzhDCode : List ℕ :=
  [0x00, 0x00, 0x00, 0x00, 0x00, 0x00, 0x00, 0x00, 0x00, 0x00, 0x00, 0x00, 0x00, 0x00, 0x00, 0x00,
   0x00, 0x00, 0x00, 0x00, 0x00, 0x00, 0x00, 0x00, 0x00, 0x00, 0x00, 0x00, 0x00, 0x00, 0x00, 0x00,
   0x01, 0x01, 0x01, 0x01, 0x01, 0x01, 0x01, 0x01, 0x01, 0x01, 0x01, 0x01, 0x01, 0x01, 0x01, 0x01,
   0x02, 0x02, 0x02, 0x02, 0x02, 0x02, 0x02, 0x02, 0x02, 0x02, 0x02, 0x02, 0x02, 0x02, 0x02, 0x02,
   0x03, 0x03, 0x03, 0x03, 0x03, 0x03, 0x03, 0x03, 0x03, 0x03, 0x03, 0x03, 0x03, 0x03, 0x03, 0x03,
   0x04, 0x04, 0x04, 0x04, 0x04, 0x04, 0x04, 0x04, 0x05, 0x05, 0x05, 0x05, 0x05, 0x05, 0x05, 0x05,
   0x06, 0x06, 0x06, 0x06, 0x06, 0x06, 0x06, 0x06, 0x07, 0x07, 0x07, 0x07, 0x07, 0x07, 0x07, 0x07,
   0x08, 0x08, 0x08, 0x08, 0x08, 0x08, 0x08, 0x08, 0x09, 0x09, 0x09, 0x09, 0x09, 0x09, 0x09, 0x09,
   0x0a, 0x0a, 0x0a, 0x0a, 0x0a, 0x0a, 0x0a, 0x0a, 0x0b, 0x0b, 0x0b, 0x0b, 0x0b, 0x0b, 0x0b, 0x0b,
   0x0c, 0x0c, 0x0c, 0x0c, 0x0d, 0x0d, 0x0d, 0x0d, 0x0e, 0x0e, 0x0e, 0x0e, 0x0f, 0x0f, 0x0f, 0x0f,
   0x10, 0x10, 0x10, 0x10, 0x11, 0x11, 0x11, 0x11, 0x12, 0x12, 0x12, 0x12, 0x13, 0x13, 0x13, 0x13,
   0x14, 0x14, 0x14, 0x14, 0x15, 0x15, 0x15, 0x15, 0x16, 0x16, 0x16, 0x16, 0x17, 0x17, 0x17, 0x17,
   0x18, 0x18, 0x19, 0x19, 0x1a, 0x1a, 0x1b, 0x1b, 0x1c, 0x1c, 0x1d, 0x1d, 0x1e, 0x1e, 0x1f, 0x1f,
   0x20, 0x20, 0x21, 0x21, 0x22, 0x22, 0x23, 0x23, 0x24, 0x24, 0x25, 0x25, 0x26, 0x26, 0x27, 0x27,
   0x28, 0x28, 0x29, 0x29, 0x2a, 0x2a, 0x2b, 0x2b, 0x2c, 0x2c, 0x2d, 0x2d, 0x2e, 0x2e, 0x2f, 0x2f,
   0x30, 0x31, 0x32, 0x33, 0x34, 0x35, 0x36, 0x37, 0x38, 0x39, 0x3a, 0x3b, 0x3c, 0x3d, 0x3e, 0x3f]

def lzhDLen : List ℕ :=
  [0x03, 0x03, 0x03, 0x03, 0x03, 0x03, 0x03, 0x03, 0x03, 0x03, 0x03, 0x03, 0x03, 0x03, 0x03, 0x03,
   0x03, 0x03, 0x03, 0x03, 0x03, 0x03, 0x03, 0x03, 0x03, 0x03, 0x03, 0x03, 0x03, 0x03, 0x03, 0x03,
   0x04, 0x04, 0x04, 0x04, 0x04, 0x04, 0x04, 0x04, 0x04, 0x04, 0x04, 0x04, 0x04, 0x04, 0x04, 0x04,
   0x04, 0x04, 0x04, 0x04, 0x04, 0x04, 0x04, 0x04, 0x04, 0x04, 0x04, 0x04, 0x04, 0x04, 0x04, 0x04,
   0x04, 0x04, 0x04, 0x04, 0x04, 0x04, 0x04, 0x04, 0x04, 0x04, 0x04, 0x04, 0x04, 0x04, 0x04, 0x04,
   0x05, 0x05, 0x05, 0x05, 0x05, 0x05, 0x05, 0x05, 0x05, 0x05, 0x05, 0x05, 0x05, 0x05, 0x05, 0x05,
   0x05, 0x05, 0x05, 0x05, 0x05, 0x05, 0x05, 0x05, 0x05, 0x05, 0x05, 0x05, 0x05, 0x05, 0x05, 0x05,
   0x05, 0x05, 0x05, 0x05, 0x05, 0x05, 0x05, 0x05, 0x05, 0x05, 0x05, 0x05, 0x05, 0x05, 0x05, 0x05,
   0x05, 0x05, 0x05, 0x05, 0x05, 0x05, 0x05, 0x05, 0x05, 0x05, 0x05, 0x05, 0x05, 0x05, 0x05, 0x05,
   0x06, 0x06, 0x06, 0x06, 0x06, 0x06, 0x06, 0x06, 0x06, 0x06, 0x06, 0x06, 0x06, 0x06, 0x06, 0x06,
   0x06, 0x06, 0x06, 0x06, 0x06, 0x06, 0x06, 0x06, 0x06, 0x06, 0x06, 0x06, 0x06, 0x06, 0x06, 0x06,
   0x06, 0x06, 0x06, 0x06, 0x06, 0x06, 0x06, 0x06, 0x06, 0x06, 0x06, 0x06, 0x06, 0x06, 0x06, 0x06,
   0x07, 0x07, 0x07, 0x07, 0x07, 0x07, 0x07, 0x07, 0x07, 0x07, 0x07, 0x07, 0x07, 0x07, 0x07, 0x07,
   0x07, 0x07, 0x07, 0x07, 0x07, 0x07, 0x07, 0x07, 0x07, 0x07, 0x07, 0x07, 0x07, 0x07, 0x07, 0x07,
   0x07, 0x07, 0x07, 0x07, 0x07, 0x07, 0x07, 0x07, 0x07, 0x07, 0x07, 0x07, 0x07, 0x07, 0x07, 0x07,
   0x08, 0x08, 0x08, 0x08, 0x08, 0x08, 0x08, 0x08, 0x08, 0x08, 0x08, 0x08, 0x08, 0x08, 0x08, 0x08]

/-! ## The tree of frequencies -/

/-- The tables of the tree.  The frequencies are 16-bit numbers; the nodes, `short`s in
the code, never leave their range. -/
structure Huff where
  freq : Table ℕ (lzhT + 1)
  prnt : Table ℕ (lzhT + lzhNChar)
  son : Table ℕ (lzhT + 1)

/-- The links back from the child or the children at `k`. -/
def setPrnt (prnt : Table ℕ (lzhT + lzhNChar)) (k i : ℕ) : Option (Table ℕ (lzhT + lzhNChar)) := do
  let prnt ← prnt.write k i
  if k < lzhT then prnt.write (k + 1) i else some prnt

/-- A leaf of `lzh_start_huff`. -/
def startLeaf (i : ℕ) (h : Huff) : Option Huff := do
  let freq ← h.freq.write i 1
  let son ← h.son.write i (i + lzhT)
  let prnt ← h.prnt.write (i + lzhT) i
  some ⟨freq, prnt, son⟩

/-- The `m`-th inner node of `lzh_start_huff`. -/
def startNode (m : ℕ) (h : Huff) : Option Huff := do
  let i := 2 * m
  let j := lzhNChar + m
  let f ← h.freq.read i
  let g ← h.freq.read (i + 1)
  let freq ← h.freq.write j ((f + g) % 2 ^ 16)
  let son ← h.son.write j i
  let prnt ← h.prnt.write (i + 1) j
  let prnt ← prnt.write i j
  some ⟨freq, prnt, son⟩

/-- `lzh_start_huff` on the zeroed tables. -/
def lzhStartHuff : Option Huff := do
  let h ← forUpto lzhNChar startLeaf ⟨⟨fun _ ↦ 0⟩, ⟨fun _ ↦ 0⟩, ⟨fun _ ↦ 0⟩⟩
  let h ← forUpto (lzhNChar - 1) startNode h
  let freq ← h.freq.write lzhT 0xffff
  let prnt ← h.prnt.write lzhR 0
  some ⟨freq, prnt, h.son⟩

/-- A leaf at `i` moves to the `j`-th place with half its frequency. -/
def halveLeaf (i : ℕ) (s : Huff × ℕ) : Option (Huff × ℕ) := do
  let (h, j) := s
  let k ← h.son.read i
  if lzhT ≤ k then
    let f ← h.freq.read i
    let freq ← h.freq.write j ((f + 1) / 2)
    let son ← h.son.write j k
    some (⟨freq, h.prnt, son⟩, j + 1)
  else some s

/-- The search down from `k - 1` for a node whose frequency is at most `f`; the place
behind it. -/
def searchDown (freq : Table ℕ (lzhT + 1)) (f : ℕ) : ℕ → Option ℕ
  | 0 => none
  | k + 1 => do
      let g ← freq.read k
      if f < g then searchDown freq f k else some (k + 1)

/-- The `m`-th pair of children gets its parent, in the order of the frequencies. -/
def joinNode (m : ℕ) (h : Huff) : Option Huff := do
  let i := 2 * m
  let j := lzhNChar + m
  let f ← h.freq.read i
  let g ← h.freq.read (i + 1)
  let f := (f + g) % 2 ^ 16
  let freq ← h.freq.write j f
  let k ← searchDown freq f j
  let freq ← freq.moveUp k j
  let freq ← freq.write k f
  let son ← h.son.moveUp k j
  let son ← son.write k i
  some ⟨freq, h.prnt, son⟩

/-- The links back to the node at `i`. -/
def connectNode (i : ℕ) (h : Huff) : Option Huff := do
  let k ← h.son.read i
  let prnt ← setPrnt h.prnt k i
  some { h with prnt := prnt }

def lzhReconst (h : Huff) : Option Huff := do
  let (h, _) ← forUpto lzhT halveLeaf (h, 0)
  let h ← forUpto (lzhT - lzhNChar) joinNode h
  forUpto lzhT connectNode h

/-- A 16-bit number as a `short`. -/
def toShort (f : ℕ) : ℤ := if f < 0x8000 then f else f - 0x10000

/-- A `short` as an `unsigned`. -/
def toUnsigned (k : ℤ) : ℕ := (k % 2 ^ 32).toNat

/-- The search up from `l`, with `n` nodes to go, for a frequency of at least `k`. -/
def searchUp (freq : Table ℕ (lzhT + 1)) (k : ℤ) : ℕ → ℕ → Option ℕ
  | 0, l => some l
  | n + 1, l => do
      let f ← freq.read (l + 1)
      if (f : ℤ) < k then searchUp freq k n (l + 1) else some (l + 1)

/-- The node `c` changes places with `l`; its new frequency is `f`. -/
def exchange (h : Huff) (c l f : ℕ) : Option Huff := do
  let g ← h.freq.read l
  let freq ← h.freq.write c g
  let freq ← freq.write l f
  let i ← h.son.read c
  let prnt ← setPrnt h.prnt i l
  let j ← h.son.read l
  let son ← h.son.write l i
  let prnt ← setPrnt prnt j c
  let son ← son.write c j
  some ⟨freq, prnt, son⟩

/-- One round of `lzh_update`: the frequency at `c` is incremented, and the node is
exchanged if it is now too great for its place, which is returned. -/
def updateNode (h : Huff) (c : ℕ) : Option (Huff × ℕ) := do
  let f ← h.freq.read c
  let f := (f + 1) % 2 ^ 16
  let freq ← h.freq.write c f
  let h := { h with freq := freq }
  let g ← freq.read (c + 1)
  -- the comparison is unsigned, so that a sum of 0x8000 counts as great
  if g < toUnsigned (toShort f) then
    let l ← searchUp freq (toShort f) (lzhT - (c + 1)) (c + 1)
    let h ← exchange h c (l - 1) f
    some (h, l - 1)
  else some (h, c)

/-- The way from the node `c` to the root, in at most `n` rounds. -/
def updatePath : ℕ → Huff → ℕ → Option Huff
  | 0, _, _ => none
  | n + 1, h, c => do
      let (h, c) ← updateNode h c
      let c ← h.prnt.read c
      if c ≠ 0 ∧ c < lzhT then updatePath n h c else some h

/-- `lzh_update`.  The way to the root visits each node once at most. -/
def lzhUpdate (h : Huff) (c : ℕ) : Option Huff := do
  let f ← h.freq.read lzhR
  let h ← if f = maxFreq then lzhReconst h else some h
  let c ← h.prnt.read (c + lzhT)
  updatePath (lzhT + 1) h c

/-! ## Bits -/

/-- The bits that have been read ahead, and how many bytes have been read. -/
structure BitIn where
  getbuf : UInt16 := 0
  getlen : ℕ := 0
  incnt : ℕ

section Decode

variable (inbuf : ℕ → UInt8) (inlen : ℤ)

/-- A byte is read ahead; behind the end of the input it is zero. -/
def loadByte (b : BitIn) : BitIn :=
  let ended := inlen ≤ b.incnt
  let i : UInt16 := if ended then 0 else (inbuf b.incnt).toUInt16
  { getbuf := b.getbuf ||| i <<< UInt16.ofNat (8 - b.getlen)
    getlen := b.getlen + 8
    incnt := if ended then b.incnt else b.incnt + 1 }

/-- More than 8 bits are there after at most two bytes. -/
def fillBits (b : BitIn) : BitIn :=
  if b.getlen ≤ 8 then
    let b := loadByte inbuf inlen b
    if b.getlen ≤ 8 then loadByte inbuf inlen b else b
  else b

def lzhGetbit (b : BitIn) : ℕ × BitIn :=
  let b := fillBits inbuf inlen b
  (if 0x8000 ≤ b.getbuf then 1 else 0, { b with getbuf := b.getbuf <<< 1, getlen := b.getlen - 1 })

def lzhGetbyte (b : BitIn) : ℕ × BitIn :=
  let b := fillBits inbuf inlen b
  ((b.getbuf >>> 8).toNat, { b with getbuf := b.getbuf <<< 8, getlen := b.getlen - 8 })

/-! ## Codes -/

/-- The way from a node to a leaf, in at most `n` rounds. -/
def walkDown (son : Table ℕ (lzhT + 1)) : ℕ → ℕ → BitIn → Option (ℕ × BitIn)
  | 0, _, _ => none
  | n + 1, c, b =>
      if c < lzhT then do
        let (bit, b) := lzhGetbit inbuf inlen b
        let c ← son.read (c + bit)
        walkDown son n c b
      else some (c, b)

def lzhDecodeChar (h : Huff) (b : BitIn) : Option (ℕ × Huff × BitIn) := do
  let c ← h.son.read lzhR
  let (c, b) ← walkDown inbuf inlen h.son (lzhT + 1) c b
  let c := c - lzhT
  let h ← lzhUpdate h c
  some (c, h, b)

/-- The lower bits of a position. -/
def lowBits : ℕ → ℕ → BitIn → ℕ × BitIn
  | 0, i, b => (i, b)
  | j + 1, i, b =>
      let (bit, b) := lzhGetbit inbuf inlen b
      lowBits j ((2 * i + bit) % 2 ^ 16) b

def lzhDecodePosition (b : BitIn) : Option (ℕ × BitIn) := do
  let (i, b) := lzhGetbyte inbuf inlen b
  let c ← lzhDCode[i]?
  let j ← lzhDLen[i]?
  let (i, b) := lowBits inbuf inlen (j - 2) i b
  some (c <<< 6 ||| i &&& 0x3f, b)

/-! ## Text -/

/-- The last bytes of the text, the place for the next, and the output. -/
structure Window where
  textBuf : Table UInt8 (lzhN + lzhF - 1)
  r : ℕ
  out : Buffer UInt8

/-- A byte of the text. -/
def Window.putChar (w : Window) (c : UInt8) : Option Window := do
  let out ← w.out.put [c]
  let textBuf ← w.textBuf.write w.r c
  some ⟨textBuf, (w.r + 1) % lzhN, out⟩

/-- A copy of `j` bytes from place `i` on, up to the end of the text. -/
def Window.copy (textsize i : ℕ) : ℕ → ℕ → Window → Option Window
  | 0, _, w => some w
  | j + 1, k, w =>
      if w.out.items.length < textsize then do
        let c ← w.textBuf.read ((i + k) % lzhN)
        let w ← w.putChar c
        Window.copy textsize i j (k + 1) w
      else some w

/-- A byte or a copy. -/
def decodeStep (textsize : ℕ) (h : Huff) (b : BitIn) (w : Window) :
    Option (Huff × BitIn × Window) := do
  let (c, h, b) ← lzhDecodeChar inbuf inlen h b
  if c < 256 then
    let w ← w.putChar (UInt8.ofNat c)
    some (h, b, w)
  else
    let (pos, b) ← lzhDecodePosition inbuf inlen b
    let i := (((w.r : ℤ) - pos - 1) % lzhN).toNat
    let w ← Window.copy textsize i (c - 255 + lzhThreshold) 0 w
    some (h, b, w)

/-- The main loop of `lzh_decode`, in at most `n` rounds. -/
def decodeLoop (textsize : ℕ) : ℕ → Huff → BitIn → Window → Option (Buffer UInt8)
  | 0, _, _, _ => none
  | n + 1, h, b, w =>
      if w.out.items.length < textsize then do
        let (h, b, w) ← decodeStep inbuf inlen textsize h b w
        decodeLoop textsize n h b w
      else some w.out

/-- `lzh_decode` with room for `room` bytes of output, fewer than 2^32: the bytes it
writes, or `none` when it does not keep inside its buffers or does not return.  Each
round of the main loop writes a byte at least.  The count of bytes is compared with the
signed length as an `unsigned long`. -/
def lzhDecode (room : ℕ) : Option (List UInt8) :=
  let textsize := int32At inbuf
  if textsize = 0 then some []
  else do
    let h ← lzhStartHuff
    let w ← forUpto (lzhN - lzhF) (fun i t ↦ t.write i 32) ⟨fun _ ↦ 0⟩
    let out ← decodeLoop inbuf inlen (textsize % 2 ^ 64).toNat (room + 1) h { incnt := 4 }
      ⟨w, lzhN - lzhF, ⟨[], room, Nat.zero_le room⟩⟩
    some out.items

end Decode

end Synchronet.Encode
