import Synchronet.Lib.RecordFile
import Synchronet.Lib.LittleEndian

/-!
# Message-base records (smbdefs.h)

The records of a Synchronet message base and the base itself.  On-disk fields
keep their width; a `long` or `ulong` of the code is 64 bits wide and is a
natural number here, since file positions stay far below its limit.

A base is the list of its files.  `shd` holds the bytes of the header file
behind the base's own 32-byte record, whose contents are `status`; byte `32 + i`
of the file is `shd[i]`.  Allocation tables, index and hash file are lists of
their records.  Opening, locking and closing always succeed, and the only reads
that fail are those that run past the end of a file.
-/

namespace Synchronet.Smblib

/-- Result codes. -/
inductive Code
  | success
  | failure
  | errNotOpen
  | errHdrLen
  | errHdrOffset
  | errHdrId
  | errHdrVer
  | errNotFound
  | errDatOffset
  | errDatLen
  | errSeek
  | errRead
  | errFileLen
  | errMem
  | dupeMsg
  deriving DecidableEq, Repr

def Code.value : Code → ℤ
  | success => 0
  | failure => -1
  | errNotOpen => -100
  | errHdrLen => -101
  | errHdrOffset => -102
  | errHdrId => -103
  | errHdrVer => -104
  | errNotFound => -110
  | errDatOffset => -120
  | errDatLen => -121
  | errSeek => -201
  | errRead => -203
  | errFileLen => -206
  | errMem => -300
  | dupeMsg => 1

abbrev sdtBlockLen : ℕ := 256
abbrev shdBlockLen : ℕ := 256
abbrev smbMaxHdrLen : ℕ := 0xffff

/-- `sizeof(smbhdr_t) + sizeof(smbstatus_t)`. -/
abbrev smbHdrSize : ℕ := 32
abbrev msghdrSize : ℕ := 70
abbrev dfieldSize : ℕ := 10
abbrev hfieldSize : ℕ := 4

/-- `LONG_MAX` of a 64-bit `long`. -/
abbrev longMax : ℕ := 2 ^ 63 - 1

/-- Storage modes. -/
inductive Storage
  | selfpack
  | fastalloc
  | hyperalloc
  deriving DecidableEq, Repr

def smbEmail : UInt16 := 1
def smbHyperalloc : UInt16 := 2
def smbNohash : UInt16 := 4

def msgDelete : UInt16 := 0x0010
def msgReplied : UInt16 := 0x0200

def textBody : UInt16 := 0x00
def textTail : UInt16 := 0x02

def xlatNone : UInt16 := 0
def xlatLzh : UInt16 := 9

def sender : UInt16 := 0x00
def senderext : UInt16 := 0x04
def recipient : UInt16 := 0x30
def recipientext : UInt16 := 0x34
def forwarded : UInt16 := 0x48
def subject : UInt16 := 0x60
def smbComment : UInt16 := 0x62
def smbExpiration : UInt16 := 0x65
def fidomsgid : UInt16 := 0xa4
def fidoreplyid : UInt16 := 0xa5
def rfc822msgid : UInt16 := 0xb1
def rfc822replyid : UInt16 := 0xb2
def smtpsysmsg : UInt16 := 0xd8

/-- `SHD_HEADER_ID`, the four bytes `S H D ^Z` read as one little-endian word. -/
def shdHeaderId : UInt32 := 0x1a444853

/-- `SMB_VERSION`. -/
def smbVersion : UInt16 := 0x121

/-- Time with time zone. -/
structure WhenT where
  time : UInt32 := 0
  zone : UInt16 := 0
  deriving DecidableEq, Repr

/-- Status header record. -/
structure SmbStatus where
  lastMsg : UInt32 := 0
  totalMsgs : UInt32 := 0
  headerOffset : UInt32 := 32
  maxCrcs : UInt32 := 0
  attr : UInt16 := 0
  deriving DecidableEq, Repr

/-- Index record. -/
structure IdxRec where
  to_ : UInt16 := 0
  from_ : UInt16 := 0
  subj : UInt16 := 0
  attr : UInt16 := 0
  offset : UInt32 := 0
  number : UInt32 := 0
  time : UInt32 := 0
  deriving DecidableEq, Repr

/-- Message header, fixed portion.  `id` and `reserved` are byte arrays on disk
and little-endian words here. -/
structure MsgHdr where
  id : UInt32 := 0
  type : UInt16 := 0
  version : UInt16 := 0
  length : UInt16 := 0
  attr : UInt16 := 0
  auxattr : UInt32 := 0
  netattr : UInt32 := 0
  whenWritten : WhenT := {}
  whenImported : WhenT := {}
  number : UInt32 := 0
  threadBack : UInt32 := 0
  threadNext : UInt32 := 0
  threadFirst : UInt32 := 0
  deliveryAttempts : UInt16 := 0
  reserved : UInt16 := 0
  threadId : UInt32 := 0
  timesDownloaded : UInt32 := 0
  lastDownloaded : UInt32 := 0
  offset : UInt32 := 0
  totalDfields : UInt16 := 0
  deriving DecidableEq, Repr

/-- Data field. -/
structure DField where
  type : UInt16
  offset : UInt32
  length : UInt32
  deriving DecidableEq, Repr

/-- Header field with its data.  `none` is the null pointer that a failed
allocation leaves behind; the ASCIIZ terminator is not part of the data. -/
structure HField where
  type : UInt16
  length : UInt16
  dat : Option (List UInt8)
  deriving DecidableEq, Repr

/-- The bytes `fwrite(hfield_dat, length)` takes from the field. -/
def HField.bytes (h : HField) : List UInt8 := (h.dat.getD []).take h.length.toNat

/-- The convenience variables of a message that the modelled functions read, each
pointer as the string it points to. -/
structure Convenience where
  forwarded : Bool := false
  expiration : UInt32 := 0
  to_ : Option (List UInt8) := none
  toExt : Option (List UInt8) := none
  from_ : Option (List UInt8) := none
  fromExt : Option (List UInt8) := none
  subj : Option (List UInt8) := none
  id : Option (List UInt8) := none
  replyId : Option (List UInt8) := none
  ftnMsgid : Option (List UInt8) := none
  ftnReply : Option (List UInt8) := none
  deriving DecidableEq, Repr

/-- A message in memory.  `dfield` may be longer than `hdr.totalDfields`, which
alone says how many data fields count. -/
structure SmbMsg where
  idx : IdxRec := {}
  hdr : MsgHdr := {}
  hfield : List HField := []
  dfield : List DField := []
  offset : ℤ := 0
  hashed : Bool := false
  conv : Convenience := {}
  deriving DecidableEq, Repr

/-- The data fields that count. -/
def SmbMsg.dfields (msg : SmbMsg) : List DField := msg.dfield.take msg.hdr.totalDfields.toNat

/-- Hash record. -/
structure Hash where
  number : UInt32
  time : UInt32
  length : UInt32
  source : UInt8
  flags : UInt8
  crc16 : UInt16
  crc32 : UInt32
  md5 : List UInt8
  deriving DecidableEq, Repr

/-- A message base. -/
structure Smb where
  status : SmbStatus := {}
  shd : List UInt8 := []
  sdt : List UInt8 := []
  sid : List IdxRec := []
  sda : List UInt16 := []
  sha : List UInt8 := []
  sch : List UInt8 := []
  hash : List Hash := []
  deriving DecidableEq, Repr

/-- What the message-base code takes from elsewhere: the checksums and the LZH
coder of the neighbouring libraries, the clock, and the contents of the heap
behind the buffer of `smb_addcrc`.  `lzhDecode` gives the bytes that decoding a
field appends to the text. -/
structure Env where
  crc16 : List UInt8 → UInt16
  crc32 : List UInt8 → UInt32
  md5 : List UInt8 → List UInt8
  lzhEncode : List UInt8 → List UInt8
  lzhDecode : List UInt8 → List UInt8
  now : UInt32
  heap : ℕ → UInt8

/-- Checksums that are always zero, a coder that leaves its input alone, and an
empty heap. -/
def plainEnv : Env where
  crc16 := fun _ ↦ 0
  crc32 := fun _ ↦ 0
  md5 := fun _ ↦ List.replicate 16 0
  lzhEncode := id
  lzhDecode := id
  now := 0
  heap := fun _ ↦ 0

/-- The string that starts at a byte buffer. -/
def cstr (bs : List UInt8) : List UInt8 := bs.takeWhile (· ≠ 0)

theorem cstr_of_notMem {s : List UInt8} (h : 0 ∉ s) : cstr s = s := by
  induction s with
  | nil => rfl
  | cons c s ih =>
      have hc : c ≠ 0 := fun hc ↦ h (by simp [hc])
      have hs : 0 ∉ s := fun hs ↦ h (by simp [hs])
      rw [cstr, List.takeWhile_cons_of_pos (by simp [hc]), ← cstr, ih hs]

theorem cstr_append_zero {s : List UInt8} (h : 0 ∉ s) (rest : List UInt8) :
    cstr (s ++ 0 :: rest) = s := by
  have hpos : ∀ c ∈ s, decide (c ≠ 0) = true := fun c hc ↦ by
    rw [decide_eq_true_iff]
    rintro rfl
    exact h hc
  rw [cstr, List.takeWhile_append_of_pos hpos]
  simp

def smbDatblocks (length : ℕ) : ℕ :=
  length / sdtBlockLen + if length % sdtBlockLen = 0 then 0 else 1

def smbHdrblocks (length : ℕ) : ℕ :=
  length / shdBlockLen + if length % shdBlockLen = 0 then 0 else 1

def smbValidHdrOffset (status : SmbStatus) (offset : ℕ) : Bool :=
  decide (smbHdrSize ≤ offset ∧ status.headerOffset.toNat ≤ offset)

/-- `smb_create`: the settings in `status` are kept, everything else is emptied. -/
def smbCreate (smb : Smb) : Smb :=
  { status := { smb.status with lastMsg := 0, totalMsgs := 0, headerOffset := 32 } }

theorem smbDatblocks_eq (n : ℕ) : smbDatblocks n = (n + 255) / 256 := by
  simp only [smbDatblocks, sdtBlockLen]
  split <;> omega

theorem smbHdrblocks_eq (n : ℕ) : smbHdrblocks n = (n + 255) / 256 := by
  simp only [smbHdrblocks, shdBlockLen]
  split <;> omega

@[simp] theorem smbDatblocks_zero : smbDatblocks 0 = 0 := rfl

theorem smbDatblocks_pos {n : ℕ} (hn : 0 < n) : 0 < smbDatblocks n := by
  rw [smbDatblocks_eq]
  omega

theorem smbHdrblocks_pos {n : ℕ} (hn : 0 < n) : 0 < smbHdrblocks n := by
  rw [smbHdrblocks_eq]
  omega

theorem smbHdrblocks_mono {m n : ℕ} (h : m ≤ n) : smbHdrblocks m ≤ smbHdrblocks n := by
  rw [smbHdrblocks_eq, smbHdrblocks_eq]
  omega

end Synchronet.Smblib
