import Synchronet.Lib.Words
import Synchronet.Smblib.Crc

/-!
# XMODEM transfers (xmodem.c, sexyz.c)

`xmodem_send_file` and the XMODEM part of `receive_files` as two machines.  Each of them stops
where its source calls `getcom`, and goes on with what `getcom` returns: the sender with one
reply, the receiver with the bytes that one turn of the loop in `xmodem_get_block` reads.
-/

namespace Synchronet.Sbbs3.Xmodem

open Smblib Words

def SOH : UInt8 := 0x01
def STX : UInt8 := 0x02
def EOT : UInt8 := 0x04
def ACK : UInt8 := 0x06
def NAK : UInt8 := 0x15
def CAN : UInt8 := 0x18
def CPMEOF : UInt8 := 0x1a

def xmodemMinBlockSize : ℕ := 128
def xmodemMaxBlockSize : ℕ := 1024

/-- What `getcom` returns: a byte, or `NOINP` when none came in time. -/
abbrev Getcom := Option UInt8

/-- The settings of `xmodem_t`, and `max_file_size` of sexyz.c. -/
structure Settings where
  maxErrors : ℕ
  blockSize : ℕ
  maxBlockSize : ℕ
  crcModeSupported : Bool
  maxFileSize : ℕ

/-! ## Blocks -/

def calcCrc (block : List UInt8) : UInt16 := block.foldl (fun crc b ↦ ucrc16 b crc) 0

def calcChksum (block : List UInt8) : UInt8 := block.foldl (· + ·) 0

def checkBytes (crc : Bool) (block : List UInt8) : List UInt8 :=
  if crc then [(calcCrc block >>> 8).toUInt8, (calcCrc block).toUInt8] else [calcChksum block]

/-- The block has `block_size` bytes. -/
def xmodemPutBlock (crc : Bool) (block : List UInt8) (blockNum : ℕ) : List UInt8 :=
  let ch := UInt8.ofNat blockNum
  (if block.length = xmodemMinBlockSize then SOH else STX) :: ch :: ~~~ch ::
    (block ++ checkBytes crc block)

/-- Where the list ends nothing more comes in. -/
def getcom : List Getcom → Getcom × List Getcom
  | [] => (none, [])
  | i :: input => (i, input)

/-- So many bytes, `none` when one of them does not come. -/
def readBytes : ℕ → List Getcom → Option (List UInt8 × List Getcom)
  | 0, input => some ([], input)
  | n + 1, some b :: input => (readBytes n input).map fun r ↦ (b :: r.1, r.2)
  | _ + 1, _ => none

/-- `NOINP` is `-1`. -/
def Getcom.word (i : Getcom) : UInt16 := i.elim 0xffff UInt8.toUInt16

def checks (crc : Bool) (block : List UInt8) (input : List Getcom) : Bool :=
  if crc then join16 (getcom input).1.word (getcom (getcom input).2).1.word == calcCrc block
  else (getcom input).1.getD 0xff == calcChksum block

/-- In the mode `XMODEM` without `GMODE`. -/
def xmodemPutNak (crc : Bool) (blockNum : ℕ) : UInt8 :=
  if blockNum ≤ 1 then if crc then 0x43 else NAK else NAK

inductive BlockResult
  | success (block : List UInt8)
  | eot
  | can
  | noinp
  | failure
  | notXmodem
  | notYmodem
  deriving DecidableEq

/-- One turn of the loop in `xmodem_get_block`: it goes on with these `eot` and `can`, having sent
something, or it returns. -/
inductive Turn
  | again (eot can : Bool) (sent : List UInt8)
  | ret (result : BlockResult)
  deriving DecidableEq

/-- After `SOH` or `STX`, which reset `eot` and `can`. -/
def getBlockBody (crc : Bool) (expected blockSize : ℕ) (input : List Getcom) : Turn :=
  match readBytes 2 input with
  | some ([blockNum, blockInv], input) =>
      match readBytes blockSize input with
      | some (block, input) =>
          if blockNum ≠ ~~~blockInv then .ret .failure
          else if !checks crc block input then .ret .failure
          else if blockNum ≠ UInt8.ofNat expected then
            if expected = 1 ∧ blockNum = 0 then .ret .notXmodem
            else if expected = 0 ∧ blockNum = 1 then .ret .notYmodem
            -- a repeated block is discarded without an answer
            else if expected ≠ 0 ∧ blockNum = UInt8.ofNat (expected - 1) then .again false false []
            else .ret .failure
          else .ret (.success block)
      | none => .ret .failure
  | _ => .ret .failure

def xmodemGetBlockTurn (xm : Settings) (crc : Bool) (expected : ℕ) (eot can : Bool)
    (input : List Getcom) : Turn :=
  let i := (getcom input).1
  let input := (getcom input).2
  let eot := eot && (i == some EOT || i == none)
  let can := can && i == some CAN
  if i = some SOH then getBlockBody crc expected xmodemMinBlockSize input
  else if i = some STX then
    if xm.maxBlockSize < xmodemMaxBlockSize then .ret .failure
    else getBlockBody crc expected xmodemMaxBlockSize input
  else if i = some EOT then
    if !eot then .again true can [xmodemPutNak crc expected] else .ret .eot
  else if i = some CAN then
    if !can then .again eot true [] else .ret .can
  else if eot then .ret .eot else .ret .noinp

/-! ## The receiver -/

inductive Status
  | receiving
  | success
  | failed
  deriving DecidableEq

/-- `turns`, `eot` and `can` are those of `xmodem_get_block`, where `turns` is called `errors`. -/
structure Receiver where
  crc : Bool
  blockNum : ℕ
  errors : ℕ
  fileBytesLeft : ℕ
  written : List UInt8
  turns : ℕ
  eot : Bool
  can : Bool
  status : Status
  deriving DecidableEq

def cancelBytes : List UInt8 := List.replicate 8 CAN ++ List.replicate 10 0x08

/-- The head of the loop in `receive_files` and the call of `xmodem_get_block`. -/
def Receiver.getBlock (xm : Settings) (r : Receiver) : Receiver :=
  { r with
    turns := 0
    eot := false
    can := false
    status := if xm.maxFileSize ≠ 0 ∧ xm.maxFileSize ≤ r.written.length then .failed
      else r.status }

/-- The body of the loop in `receive_files` once `xmodem_get_block` has returned. -/
def Receiver.afterBlock (xm : Settings) (r : Receiver) : BlockResult → Receiver × List UInt8
  | .success block =>
      if r.fileBytesLeft = 0 then ({ r with status := .failed }, [ACK])
      else
        ({ r with
          written := r.written ++ block.take r.fileBytesLeft
          fileBytesLeft := r.fileBytesLeft - (block.take r.fileBytesLeft).length
          blockNum := r.blockNum + 1 }.getBlock xm, [ACK])
  | .eot => ({ r with status := .success }, [ACK])
  | .can => ({ r with status := .failed }, [])
  | result =>
      if r.errors + 1 > xm.maxErrors then
        ({ r with errors := r.errors + 1, status := .failed }, cancelBytes)
      else
        let crc := r.crc && !decide (result ≠ .notXmodem ∧ r.blockNum = 1 ∧
          r.errors + 1 > xm.maxErrors / 3)
        ({ r with errors := r.errors + 1, crc := crc }.getBlock xm,
          [xmodemPutNak crc r.blockNum])

/-- One turn with what is read in it; the replies besides. -/
def Receiver.step (xm : Settings) (r : Receiver) (input : List Getcom) : Receiver × List UInt8 :=
  if r.status ≠ .receiving then (r, [])
  else
    match xmodemGetBlockTurn xm r.crc r.blockNum r.eot r.can input with
    | .again eot can sent =>
        if r.turns + 1 ≤ xm.maxErrors then
          ({ r with turns := r.turns + 1, eot := eot, can := can }, sent)
        else ((r.afterBlock xm .failure).1, sent ++ (r.afterBlock xm .failure).2)
    | .ret result => r.afterBlock xm result

/-- The receiver has sent its first request. -/
def Receiver.start (crc : Bool) : Receiver where
  crc := crc
  blockNum := 1
  errors := 0
  fileBytesLeft := 0x7fffffff
  written := []
  turns := 0
  eot := false
  can := false
  status := .receiving

/-! ## The sender -/

/-- Where the sender waits in `getcom`, with the local variables of the function it is in. -/
inductive Phase
  | getMode (errors : ℕ) (can : Bool)
  | getAck (errors : ℕ) (can : Bool)
  | putEot (errors cans : ℕ)
  | done (success : Bool)
  deriving DecidableEq

structure Sender where
  phase : Phase
  crc : Bool
  blockNum : ℕ
  sentBytes : ℕ
  errors : ℕ
  blockSize : ℕ
  cancelled : Bool
  deriving DecidableEq

/-- The fall back to 128-byte blocks for the end of a file of `size` bytes. -/
def endBlockSize (size sentBytes blockSize : ℕ) : ℕ :=
  if blockSize > xmodemMinBlockSize ∧ sentBytes + blockSize > size ∧
    sentBytes + blockSize - xmodemMinBlockSize ≥ size then xmodemMinBlockSize else blockSize

/-- What `fread` reads. -/
def readBlock (file : List UInt8) (sentBytes blockSize : ℕ) : List UInt8 :=
  (file.drop sentBytes).take blockSize

def paddedBlock (file : List UInt8) (sentBytes blockSize : ℕ) : List UInt8 :=
  readBlock file sentBytes blockSize ++
    List.replicate (blockSize - (readBlock file sentBytes blockSize).length) CPMEOF

/-- The end of `xmodem_send_file` without success. -/
def Sender.fail (s : Sender) : Sender × List (List UInt8) :=
  ({ s with phase := .done false, cancelled := true },
    if s.cancelled then [] else cancelBytes.map fun b ↦ [b])

/-- From the head of the loop in `xmodem_send_file` to the next `getcom`, with what is sent. -/
def Sender.sendLoop (xm : Settings) (file : List UInt8) (s : Sender) :
    Sender × List (List UInt8) :=
  if s.sentBytes < file.length ∧ s.errors ≤ xm.maxErrors ∧ s.cancelled = false then
    let blockSize := endBlockSize file.length s.sentBytes s.blockSize
    ({ s with phase := .getAck 0 false, blockSize := blockSize },
      [xmodemPutBlock s.crc (paddedBlock file s.sentBytes blockSize) s.blockNum])
  else if s.sentBytes ≥ file.length ∧ s.cancelled = false then
    ({ s with phase := .putEot 0 0 }, [[EOT]])
  else s.fail

/-- `xmodem_get_ack` has returned something else than `ACK`. -/
def Sender.ackFailed (xm : Settings) (file : List UInt8) (s : Sender) :
    Sender × List (List UInt8) :=
  { s with
    errors := s.errors + 1
    blockSize := if s.errors + 1 = 3 ∧ s.blockNum = 1 ∧ s.blockSize > xmodemMinBlockSize
      then xmodemMinBlockSize else s.blockSize }.sendLoop xm file

/-- The sender goes on with what `getcom` returns. -/
def Sender.step (xm : Settings) (file : List UInt8) (s : Sender) (i : Getcom) :
    Sender × List (List UInt8) :=
  match s.phase with
  | .getMode errors can =>
      if i = some NAK then { s with crc := false, blockNum := 1, errors := 0 }.sendLoop xm file
      else if i = some 0x43 ∧ xm.crcModeSupported = true then
        { s with crc := true, blockNum := 1, errors := 0 }.sendLoop xm file
      else if i = some CAN ∧ can = true then s.fail
      else if errors + 1 ≤ xm.maxErrors then
        ({ s with phase := .getMode (errors + 1) (i == some CAN) }, [])
      else s.fail
  | .getAck errors can =>
      if i = some ACK then
        { s with
          blockNum := s.blockNum + 1
          sentBytes := s.sentBytes + (readBlock file s.sentBytes s.blockSize).length
          }.sendLoop xm file
      else if i = some CAN then
        if can then
          let r := { s with cancelled := true }.ackFailed xm file
          (r.1, s.fail.2 ++ r.2)
        else ({ s with phase := .getAck errors true }, [])
      else if i = none ∧ errors + 1 < 5 then
        ({ s with phase := .getAck (errors + 1) false }, [])
      else s.ackFailed xm file
  | .putEot errors cans =>
      if i = some ACK then ({ s with phase := .done true }, [])
      else if i = some CAN ∧ cans + 1 > 1 then s.fail
      else if errors + 1 ≤ xm.maxErrors then
        ({ s with phase := .putEot (errors + 1) (if i = some CAN then cans + 1 else cans) },
          [[EOT]])
      else s.fail
  | .done _ => (s, [])

/-- In `xmodem_get_mode`. -/
def Sender.start (xm : Settings) : Sender where
  phase := .getMode 0 false
  crc := false
  blockNum := 1
  sentBytes := 0
  errors := 0
  blockSize := xm.blockSize
  cancelled := false

/-! ## Reading a block as it was sent -/

theorem readBytes_map_some (block : List UInt8) (input : List Getcom) :
    readBytes block.length (block.map some ++ input) = some (block, input) := by
  induction block with
  | nil => rfl
  | cons b block ih => simp [readBytes, ih]

theorem checks_checkBytes (crc : Bool) (block : List UInt8) (input : List Getcom) :
    checks crc block ((checkBytes crc block).map some ++ input) = true := by
  cases crc with
  | false => simp [checks, checkBytes, getcom]
  | true =>
      have hjoin := join16_bytes (calcCrc block)
      simpa [checks, checkBytes, getcom, Getcom.word] using hjoin

theorem getBlockBody_putBlock (crc : Bool) (expected num : ℕ) (block : List UInt8)
    (input : List Getcom) :
    getBlockBody crc expected block.length (some (UInt8.ofNat num) ::
        some (~~~ UInt8.ofNat num) :: (block.map some ++ input)) =
      if !checks crc block input then .ret .failure
      else if UInt8.ofNat num ≠ UInt8.ofNat expected then
        if expected = 1 ∧ UInt8.ofNat num = 0 then .ret .notXmodem
        else if expected = 0 ∧ UInt8.ofNat num = 1 then .ret .notYmodem
        else if expected ≠ 0 ∧ UInt8.ofNat num = UInt8.ofNat (expected - 1) then
          .again false false []
        else .ret .failure
      else .ret (.success block) := by
  simp [getBlockBody, readBytes, readBytes_map_some]

theorem getBlockBody_ne_eot (crc : Bool) (expected blockSize : ℕ) (input : List Getcom) :
    getBlockBody crc expected blockSize input ≠ .ret .eot := by
  rw [getBlockBody]
  split
  · split
    · split_ifs <;> simp
    · simp
  · simp

theorem getBlockBody_again {crc : Bool} {expected blockSize : ℕ} {input : List Getcom}
    {eot can : Bool} {sent : List UInt8}
    (h : getBlockBody crc expected blockSize input = .again eot can sent) :
    eot = false ∧ sent = [] := by
  rw [getBlockBody] at h
  split at h
  · split at h
    · split_ifs at h
      all_goals simp_all
    · simp at h
  · simp at h

/-- The end is `EOT` after `EOT`, or silence after it. -/
theorem turn_eot {xm : Settings} {crc eot can : Bool} {expected : ℕ} {input : List Getcom}
    (h : xmodemGetBlockTurn xm crc expected eot can input = .ret .eot) :
    eot = true ∧ ((getcom input).1 = some EOT ∨ (getcom input).1 = none) := by
  have hbody := getBlockBody_ne_eot crc expected
  simp only [xmodemGetBlockTurn] at h
  split_ifs at h
  all_goals simp_all

/-- Only `EOT` is remembered, and nothing else is answered before the function returns. -/
theorem turn_again {xm : Settings} {crc eot can eot' can' : Bool} {expected : ℕ}
    {input : List Getcom} {sent : List UInt8}
    (h : xmodemGetBlockTurn xm crc expected eot can input = .again eot' can' sent)
    (hne : (getcom input).1 ≠ some EOT) : eot' = false ∧ sent = [] := by
  simp only [xmodemGetBlockTurn] at h
  split_ifs at h with hsoh hstx _ heot hcan
  · exact getBlockBody_again h
  · exact getBlockBody_again h
  · have hdiffer : (CAN == EOT) = false := by decide
    simp_all

/-- The lengths that `SOH` and `STX` stand for. -/
def IsBlockSize (n : ℕ) : Prop := n = xmodemMinBlockSize ∨ n = xmodemMaxBlockSize

section

variable (xm : Settings) (crc crc' : Bool) (expected num : ℕ) (eot can : Bool)
  {block : List UInt8} (input : List Getcom)

theorem turn_putBlock (hblock : IsBlockSize block.length) :
    xmodemGetBlockTurn xm crc expected eot can
        ((xmodemPutBlock crc' block num).map some ++ input) =
      if block.length = xmodemMaxBlockSize ∧ xm.maxBlockSize < xmodemMaxBlockSize then
        .ret .failure
      else getBlockBody crc expected block.length (some (UInt8.ofNat num) ::
        some (~~~ UInt8.ofNat num) ::
          (block.map some ++ ((checkBytes crc' block).map some ++ input))) := by
  have hne : xmodemMaxBlockSize ≠ xmodemMinBlockSize := by decide
  rcases hblock with hlen | hlen
  · simp [xmodemGetBlockTurn, xmodemPutBlock, getcom, hlen, hne.symm]
  · simp [xmodemGetBlockTurn, xmodemPutBlock, getcom, hlen, hne, STX, SOH]

/-- A block that came as it was sent is taken only under the number that is expected. -/
theorem turn_putBlock_success (hblock : IsBlockSize block.length) {data : List UInt8}
    (h : xmodemGetBlockTurn xm crc expected eot can
      ((xmodemPutBlock crc' block num).map some ++ input) = .ret (.success data)) :
    data = block ∧ UInt8.ofNat num = UInt8.ofNat expected := by
  rw [turn_putBlock xm crc crc' expected num eot can input hblock] at h
  split_ifs at h
  · simp at h
  · rw [getBlockBody_putBlock] at h
    split_ifs at h
    all_goals simp_all

/-- With the same check, and blocks that the receiver can take. -/
theorem turn_putBlock_self (hblock : IsBlockSize block.length)
    (hmax : xmodemMaxBlockSize ≤ xm.maxBlockSize) :
    xmodemGetBlockTurn xm crc num eot can
      ((xmodemPutBlock crc block num).map some ++ input) = .ret (.success block) := by
  rw [turn_putBlock xm crc crc num num eot can input hblock, if_neg (by simp [hmax]),
    getBlockBody_putBlock]
  simp [checks_checkBytes]

end

end Synchronet.Sbbs3.Xmodem
