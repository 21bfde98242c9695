import Synchronet.Lib.Buffer
import Synchronet.Smblib.Alloc

/-!
# Reading the text of a message (smbtxt.c)

`smb_getmsgtxt` puts the text of a message together in a buffer that it enlarges for
every field.  The buffer is one of fixed capacity between the enlargements, and a
write past its end is a fault.
-/

namespace Synchronet.Smblib

open RecordFile LittleEndian

/-- What reading a text depends on besides the message base: whether a request for
memory is met, what the memory for the compressed data and for the text of the `i`-th
field held before, what the variable `xlat` held before, and `lzh_decode`.  The decoder
is given the memory it reads from, the length of its input and the room for its output;
`none` means that it does not return or writes more than there is room for. -/
structure TextEnv where
  mem : ℕ → Bool
  heap : ℕ → ℕ → UInt8
  fresh : ℕ → ℕ → UInt8
  xlat : UInt16
  decode : (ℕ → UInt8) → ℤ → ℕ → Option (List UInt8)

/-- How a step of `smb_getmsgtxt` ends: with a fault, with an early return of the text
so far, or with the next step. -/
inductive TextStep (σ : Type)
  | fault
  | done (buf : Buffer UInt8)
  | next (s : σ)

/-- The steps one after the other. -/
def TextStep.bind {σ τ : Type} (r : TextStep σ) (f : σ → TextStep τ) : TextStep τ :=
  match r with
  | fault => fault
  | done buf => done buf
  | next s => f s

/-- A step that faults when it leaves the buffer. -/
def TextStep.ofOption {σ : Type} : Option σ → TextStep σ
  | none => fault
  | some s => next s

/-- Whether a request for memory of a signed size is met.  A negative size is one of
2^63 bytes or more, which no request is met for. -/
def granted (mem : ℕ → Bool) (size : ℤ) : Bool := decide (0 ≤ size) && mem size.toNat

/-- The memory at a buffer into which `data` has been read. -/
def loaded (data : List UInt8) (heap : ℕ → UInt8) (j : ℕ) : UInt8 := data.getD j (heap j)

/-! ## Comments -/

/-- `sprintf` of a string and a line end, with the zero at its end. -/
def putLine (buf : Buffer UInt8) (str : List UInt8) : Option (Buffer UInt8) :=
  (buf.put (str ++ [13, 10, 0])).map fun b ↦ b.truncate (buf.items.length + str.length + 2)

/-- The comment fields of the header, which are part of the text. -/
def getComments (mem : ℕ → Bool) : List HField → Buffer UInt8 → TextStep (Buffer UInt8)
  | [], buf => .next buf
  | h :: hs, buf =>
      if h.type ≠ smbComment ∧ h.type ≠ smtpsysmsg then getComments mem hs buf
      else
        match h.dat with
        | none => .fault
        | some dat =>
            let str := cstr dat
            let size := buf.items.length + (str.length + 2) + 1
            if ¬ mem size then .done buf
            else (TextStep.ofOption (putLine (buf.resize size) str)).bind (getComments mem hs)

/-! ## Data fields -/

/-- The fields that the mode asks for. -/
def wanted (mode : ℕ) (d : DField) : Bool :=
  decide (2 < d.length.toNat) &&
    (decide (d.type = textBody) && !mode.testBit 1 || decide (d.type = textTail) && mode.testBit 0)

/-- A word of the data file; what is missing at its end is left of the old value. -/
def readWord (sdt : List UInt8) (pos : ℕ) (old : UInt16) : UInt16 :=
  let bytes := readAt sdt pos 2
  UInt16.ofNat (ofLe (bytes ++ (le 2 old.toNat).drop bytes.length))

/-- Whether a field is compressed, and the last translation that was read. -/
def fieldXlat (sdt : List UInt8) (pos : ℕ) (old : UInt16) : Bool × UInt16 :=
  let xlat := readWord sdt pos old
  if xlat = xlatLzh then (true, readWord sdt (pos + 2) xlat) else (false, xlat)

/-- A field that is not compressed is read behind the text. -/
def getPlain (mem : ℕ → Bool) (sdt : List UInt8) (pos length : ℕ) (buf : Buffer UInt8) :
    TextStep (Buffer UInt8) :=
  let size := buf.items.length + length + 3
  if ¬ mem size then .done buf
  else TextStep.ofOption ((buf.resize size).put (readAt sdt pos length))

/-- A compressed field is read into a buffer of its own and decoded behind the text. -/
def getLzh (t : TextEnv) (sdt : List UInt8) (i pos length : ℕ) (buf : Buffer UInt8) :
    TextStep (Buffer UInt8) :=
  if ¬ t.mem length then .done buf
  else
    let lzhbuf := loaded (readAt sdt pos length) (t.heap i)
    let lzhlen := int32At lzhbuf
    let size := buf.items.length + lzhlen + 3
    -- a new size of zero gives the buffer back, in which the text so far is
    if size = 0 then .fault
    else if ¬ granted t.mem size then .done buf
    else
      match t.decode lzhbuf (Int32.ofNat length).toInt (lzhlen + 3).toNat with
      | none => .fault
      | some text => TextStep.ofOption ((buf.resize size.toNat).put
          ((List.range lzhlen.toNat).map (loaded text (t.fresh i))))

/-- The zeros at the end of the text are removed, except for its first byte, and a line
end is added. -/
def endText (buf : Buffer UInt8) : Option (Buffer UInt8) :=
  match buf.items with
  | [] => some buf
  | _ :: cs => putLine (buf.truncate (1 + (cs.rdropWhile (· = 0)).length)) []

/-- The text so far and the variable `xlat`. -/
structure TextState where
  buf : Buffer UInt8
  xlat : UInt16

/-- The `i`-th data field. -/
def getField (t : TextEnv) (sdt : List UInt8) (msg : SmbMsg) (mode i : ℕ) (d : DField)
    (s : TextState) : TextStep TextState :=
  if ¬ wanted mode d then .next s
  else
    let pos := dfieldPos msg d
    let x := fieldXlat sdt pos s.xlat
    -- no other translations are supported, and compressed data is not empty
    if x.2 ≠ xlatNone ∨ x.1 = true ∧ d.length.toNat - 4 < 1 then .next ⟨s.buf, x.2⟩
    else
      let text :=
        if x.1 then getLzh t sdt i (pos + 4) (d.length.toNat - 4) s.buf
        else getPlain t.mem sdt (pos + 2) (d.length.toNat - 2) s.buf
      text.bind fun buf ↦ (TextStep.ofOption (endText buf)).bind fun buf ↦ .next ⟨buf, x.2⟩

/-- The data fields from the `i`-th on. -/
def getFields (t : TextEnv) (sdt : List UInt8) (msg : SmbMsg) (mode : ℕ) :
    ℕ → List DField → TextState → TextStep TextState
  | _, [], s => .next s
  | i, d :: ds, s => (getField t sdt msg mode i d s).bind (getFields t sdt msg mode (i + 1) ds)

/-- The buffer `smb_getmsgtxt` starts with. -/
def startBuffer : Buffer UInt8 := ⟨[], 1, Nat.zero_le 1⟩

/-- The steps of `smb_getmsgtxt`. -/
def msgtxtSteps (t : TextEnv) (sdt : List UInt8) (msg : SmbMsg) (mode : ℕ) : TextStep TextState :=
  let comments :=
    if mode.testBit 2 then .next startBuffer else getComments t.mem msg.hfield startBuffer
  comments.bind fun buf ↦ getFields t sdt msg mode 0 msg.dfields ⟨buf, t.xlat⟩

/-- `smb_getmsgtxt`: the string that is returned, `some none` for the null pointer, and
`none` when it does not return or leaves a buffer.  The bits of `mode` are
`GETMSGTXT_TAILS`, `GETMSGTXT_NO_BODY` and `GETMSGTXT_NO_HFIELDS`. -/
def smbGetmsgtxt (t : TextEnv) (sdt : List UInt8) (msg : SmbMsg) (mode : ℕ) :
    Option (Option (List UInt8)) :=
  if ¬ t.mem 1 then some none
  else
    match msgtxtSteps t sdt msg mode with
    | .fault => none
    | .done buf => some (some (cstr buf.items))
    | .next s => some (some (cstr s.buf.items))

end Synchronet.Smblib
