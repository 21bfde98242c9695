import Synchronet.Smblib.AddHeader
import Synchronet.Smblib.CrcHistory
import Mathlib.Data.List.DropRight

/-!
# Adding messages (smbadd.c)

`smb_addmsg` checks a message for duplicates, stores its text, links it into its
thread, records its hashes and adds its header; when a step fails it gives the
data blocks of the message back.  The steps are functions of their own here.
Requests for memory are always met.
-/

namespace Synchronet.Smblib

open RecordFile LittleEndian

/-! ## Threads -/

/-- The loop of `smb_updatethread` that looks for the last reply, for a number of
rounds; `none` when it has not ended.  `number` is the number in the header that
was read last. -/
def updatethreadLoop (smb : Smb) (newmsgnum : UInt32) :
    ℕ → UInt32 → UInt32 → Option (Code × Smb)
  | 0, _, _ => none
  | n + 1, nextmsgnum, number =>
      if ¬ number < nextmsgnum then some (.errNotFound, smb)
      else
        match smbGetmsgidx smb.sid { hdr := { number := nextmsgnum } } with
        | .error _ => some (.errNotFound, smb)
        | .ok nextmsg =>
            match smbGetmsghdr smb.status smb.shd nextmsg with
            | none => none
            | some (.error _) => some (.errNotFound, smb)
            | some (.ok nextmsg) =>
                if nextmsg.hdr.threadNext ≠ 0 ∧ nextmsg.hdr.threadNext ≠ nextmsgnum then
                  updatethreadLoop smb newmsgnum n nextmsg.hdr.threadNext nextmsg.hdr.number
                else
                  let nextmsg := { nextmsg with hdr := { nextmsg.hdr with threadNext := newmsgnum } }
                  let r := smbPutmsghdr smb.status smb.shd nextmsg
                  some (r.1, { smb with shd := r.2.1 })

/-- `smb_updatethread`; `none` when it does not return.  A chain that visits more
records than the index has goes round for ever. -/
def smbUpdatethread (env : Env) (smb : Smb) (remsg : SmbMsg) (newmsgnum : UInt32) :
    Option (Code × Smb) :=
  if remsg.hdr.threadFirst = 0 then
    let found :=
      if remsg.offset = 0 ∨ remsg.idx.offset = 0 then smbGetmsgidx smb.sid remsg else .ok remsg
    match found with
    | .error code => some (code, smb)
    | .ok remsg =>
        let read :=
          if remsg.hdr.length = 0 then smbGetmsghdr smb.status smb.shd remsg else some (.ok remsg)
        match read with
        | none => none
        | some (.error code) => some (code, smb)
        | some (.ok remsg) =>
            let attr := remsg.hdr.attr ||| msgReplied
            let r := smbPutmsg env smb { remsg with
              hdr := { remsg.hdr with threadFirst := newmsgnum, attr := attr }
              idx := { remsg.idx with attr := attr } }
            some (r.1, r.2.1)
  else updatethreadLoop smb newmsgnum (smb.sid.length + 2) remsg.hdr.threadFirst 0

/-- `thread_back`, looked up by the identifiers of the original message when it is
not given. -/
def threadBackOf (env : Env) (smb : Smb) (msg : SmbMsg) : UInt32 :=
  let number (r : Except Code SmbMsg) : UInt32 :=
    match r with
    | .ok remsg => remsg.idx.number
    | .error _ => 0
  let byMsgid := msg.conv.replyId.elim 0 fun id ↦
    number (smbGetmsgidxByMsgid env smb.hash smb.sid {} id)
  let byFtnid := msg.conv.ftnReply.elim 0 fun id ↦
    number (smbGetmsgidxByFtnid env smb.hash smb.sid {} id)
  if msg.hdr.threadBack ≠ 0 then msg.hdr.threadBack
  else if byMsgid ≠ 0 then byMsgid
  else byFtnid

/-- A reply identifier is taken from the original message when the reply has none;
`false` when the field cannot be added. -/
def inheritId (own original : Option (List UInt8)) (type : UInt16) (msg : SmbMsg) : Bool × SmbMsg :=
  match own, original with
  | none, some id =>
      let r := smbHfieldAdd (fun _ ↦ true) msg type id false
      (r.1 = .success, r.2)
  | _, _ => (true, msg)

/-- A reply without a thread joins that of the original message. -/
def joinThread (msg remsg : SmbMsg) : SmbMsg :=
  let threadId :=
    if msg.hdr.threadId ≠ 0 then msg.hdr.threadId
    else if remsg.hdr.threadId ≠ 0 then remsg.hdr.threadId
    else remsg.hdr.number
  { msg with hdr := { msg.hdr with threadId := threadId } }

/-- Both reply identifiers, up to the first that cannot be added. -/
def inheritIds (msg remsg : SmbMsg) : Bool × SmbMsg :=
  let r := inheritId msg.conv.replyId remsg.conv.id rfc822replyid msg
  if r.1 then inheritId r.2.conv.ftnReply remsg.conv.ftnMsgid fidoreplyid r.2 else r

/-- The linkage of a reply with the original message `remsg` that has been read. -/
def linkReply (env : Env) (smb : Smb) (msg remsg : SmbMsg) : Option (Smb × SmbMsg) :=
  let r := inheritIds (joinThread msg remsg) remsg
  if r.1 then (smbUpdatethread env smb remsg r.2.hdr.number).map fun t ↦ (t.2, r.2)
  else some (smb, r.2)

/-- The original of a reply as it is read from the base, if there is one that can be
read; `none` when reading does not return. -/
def readOriginal (smb : Smb) (number : UInt32) : Option (Option SmbMsg) :=
  if number = 0 then some none
  else
    match smbGetmsgidx smb.sid { hdr := { number := number } } with
    | .error _ => some none
    | .ok remsg =>
        match smbGetmsghdr smb.status smb.shd remsg with
        | none => none
        | some (.error _) => some none
        | some (.ok remsg) => some (some remsg)

/-- The automatic linkage of a reply; `none` when it does not return. -/
def linkThread (env : Env) (smb : Smb) (msg : SmbMsg) : Option (Smb × SmbMsg) :=
  let msg := { msg with hdr := { msg.hdr with threadBack := threadBackOf env smb msg } }
  match readOriginal smb msg.hdr.threadBack with
  | none => none
  | some none => some (smb, msg)
  | some (some remsg) => linkReply env smb msg remsg

/-! ## Text -/

/-- What is stored for the tail: the end of its translation string, and the text. -/
def storedTail (tail : Option (List UInt8)) : List UInt8 :=
  match tail with
  | none | some [] => []
  | some text => le 2 xlatNone.toNat ++ text

/-- What is stored for the body, compressed where that is wanted and saves a block. -/
def storedBody (env : Env) (xlat : UInt16) (body : Option (List UInt8)) (taillen : ℕ) :
    List UInt8 :=
  match body with
  | none | some [] => []
  | some text =>
      let bodylen := text.length + 2
      let lzh := env.lzhEncode text
      if xlat = xlatLzh ∧ sdtBlockLen ≤ bodylen + taillen ∧ 1 < lzh.length ∧
          smbDatblocks (lzh.length + 4 + taillen) < smbDatblocks (bodylen + taillen) then
        le 2 xlat.toNat ++ le 2 xlatNone.toNat ++ lzh
      else le 2 xlatNone.toNat ++ text

/-- The checksum of the body, without the white space at its end, goes into the
history. -/
def addBodyCrc (env : Env) (smb : Smb) (dupechkHashes : ℕ) (body : Option (List UInt8)) :
    Code × List UInt8 :=
  match body with
  | none | some [] => (.success, smb.sch)
  | some text =>
      if smb.status.maxCrcs ≠ 0 ∧ dupechkHashes.testBit hashSourceBody.toNat then
        smbAddcrc smb.status.maxCrcs env.heap smb.sch (env.crc32 (text.rdropWhile (· ≤ 32)))
      else (.success, smb.sch)

/-- How data is allocated: the storage mode that is used, the position, and the
table afterwards. -/
def dataAlloc (storage : Storage) (smb : Smb) (length : ℕ) :
    Storage × Except Code ℕ × List UInt16 :=
  if smb.status.attr &&& smbHyperalloc ≠ 0 then
    (.hyperalloc, .ok (smbHallocdat smb.sdt), smb.sda)
  else if storage = .fastalloc then (.fastalloc, smbFallocdat smb.sda length 1)
  else (.selfpack, smbAllocdat smb.sda length 1)

/-- A data field is added for a part of the text that is not empty. -/
def addDfield (msg : SmbMsg) (type : UInt16) (text : List UInt8) : SmbMsg :=
  if text = [] then msg else (smbDfield (fun _ ↦ true) msg type text.length).2

/-- The message with its data at a byte position. -/
def SmbMsg.placed (msg : SmbMsg) (offset : UInt32) : SmbMsg :=
  { msg with hdr := { msg.hdr with offset := offset } }

/-- The text of the message is stored. -/
def storeText (smb : Smb) (msg : SmbMsg) (storage : Storage) (body tail : List UInt8) :
    Except Code (Storage × Smb × SmbMsg) :=
  let length := body.length + tail.length
  if length = 0 then .ok (storage, smb, msg)
  else if 0x80000000 ≤ length then .error .errDatLen
  else
    match dataAlloc storage smb length with
    | (_, .error code, _) => .error code
    | (storage, .ok offset, sda) =>
        let msg := msg.placed (UInt32.ofNat offset)
        let msg := addDfield (addDfield msg textBody body) textTail tail
        let padding := List.replicate (padLengthForAlignment length sdtBlockLen) 0
        .ok (storage, { smb with
          sda := sda
          sdt := writeAt 0 smb.sdt offset (body ++ tail ++ padding) }, msg)

/-- Times that are not set. -/
def stampTimes (env : Env) (msg : SmbMsg) : SmbMsg :=
  let imported := if msg.hdr.whenImported.time = 0 then ⟨env.now, 0⟩ else msg.hdr.whenImported
  let written := if msg.hdr.whenWritten.time = 0 then imported else msg.hdr.whenWritten
  { msg with hdr := { msg.hdr with whenImported := imported, whenWritten := written } }

/-! ## `smb_addmsg` -/

/-- The end of `smb_addmsg`: a failure gives the data blocks back. -/
def giveBack (r : Code × Smb × SmbMsg) : Code × Smb × SmbMsg :=
  if r.1 = .success then r
  else
    (r.1, { r.2.1 with sda := (smbFreemsgDfields r.2.1.status.attr r.2.1.sda r.2.2 1).2 }, r.2.2)

/-- The hashes of the message go into the hash file. -/
def recordHashes (smb : Smb) (msg : SmbMsg) (hashes : List Hash) : Smb × SmbMsg :=
  if hashing smb.status.attr then
    ({ smb with hash := smbAddhashes smb.hash hashes false }, { msg with hashed := true })
  else (smb, msg)

/-- The steps after the text has been stored. -/
def finishMsg (env : Env) (smb : Smb) (msg : SmbMsg) (storage : Storage) (hashes : List Hash) :
    Option (Code × Smb × SmbMsg) :=
  match linkThread env smb (stampTimes env msg) with
  | none => none
  | some (smb, msg) =>
      let r := recordHashes smb msg hashes
      -- without a recipient no header is added
      if r.2.conv.to_ = none then some (.success, r.1, r.2)
      else some (giveBack (smbAddmsghdr env r.1 r.2 storage))

/-- The message as `smb_addmsg` starts with it. -/
def numbered (smb : Smb) (msg : SmbMsg) : SmbMsg :=
  { msg with hdr := { msg.hdr with totalDfields := 0, number := smb.status.lastMsg + 1 } }

/-- The hashes that duplicates are looked for by, and that are recorded later. -/
def dupeHashes (env : Env) (smb : Smb) (msg : SmbMsg) (body : Option (List UInt8)) : List Hash :=
  if hashing smb.status.attr then smbMsghashes env msg body smbHashSourceDupe else []

/-- `smb_addmsg`; `none` when it does not return. -/
def smbAddmsg (env : Env) (smb : Smb) (msg : SmbMsg) (storage : Storage) (dupechkHashes : ℕ)
    (xlat : UInt16) (body tail : Option (List UInt8)) : Option (Code × Smb × SmbMsg) :=
  let msg := numbered smb msg
  let hashes := dupeHashes env smb msg body
  if (smbFindhash smb.hash hashes dupechkHashes false).1 ≠ none then
    some (giveBack (.dupeMsg, smb, msg))
  else
    let crc := addBodyCrc env smb dupechkHashes body
    let smb := { smb with sch := crc.2 }
    if crc.1 ≠ .success then some (giveBack (crc.1, smb, msg))
    else
      let tail := storedTail tail
      let body := storedBody env xlat body tail.length
      match storeText smb msg storage body tail with
      | .error code => some (giveBack (code, smb, msg))
      | .ok (storage, smb, msg) => finishMsg env smb msg storage hashes

/-! ## What the steps keep -/

/-- Where the text of a message is. -/
def SmbMsg.text (msg : SmbMsg) : UInt32 × List DField := (msg.hdr.offset, msg.dfields)

theorem to_setConveniencePtr (c : Convenience) {type : UInt16} (htype : type ≠ recipient)
    (dat : List UInt8) : (setConveniencePtr c type dat).to_ = c.to_ := by
  simp only [setConveniencePtr, htype, if_false]
  repeat' split
  all_goals rfl

/-- A header field that names no recipient leaves text, place and recipient alone. -/
theorem smbHfieldAdd_frame (mem : ℕ → Bool) (msg : SmbMsg) {type : UInt16}
    (htype : type ≠ recipient) (data : List UInt8) (insert : Bool) :
    (smbHfieldAdd mem msg type data insert).2.text = msg.text ∧
      (smbHfieldAdd mem msg type data insert).2.idx = msg.idx ∧
      (smbHfieldAdd mem msg type data insert).2.conv.to_ = msg.conv.to_ := by
  rw [smbHfieldAdd]
  split
  · exact ⟨rfl, rfl, rfl⟩
  · split
    · exact ⟨rfl, rfl, rfl⟩
    · split
      · exact ⟨rfl, rfl, rfl⟩
      · dsimp only
        split
        · exact ⟨rfl, rfl, rfl⟩
        · exact ⟨rfl, rfl, to_setConveniencePtr msg.conv htype data⟩

theorem inheritId_frame (own original : Option (List UInt8)) {type : UInt16}
    (htype : type ≠ recipient) (msg : SmbMsg) :
    (inheritId own original type msg).2.text = msg.text ∧
      (inheritId own original type msg).2.idx = msg.idx ∧
      (inheritId own original type msg).2.conv.to_ = msg.conv.to_ := by
  cases own with
  | some _ => exact ⟨rfl, rfl, rfl⟩
  | none =>
      cases original with
      | none => exact ⟨rfl, rfl, rfl⟩
      | some id => exact smbHfieldAdd_frame _ msg htype id false

/-- A write of header and index leaves the rest of the base alone. -/
theorem smbPutmsg_frame (env : Env) (smb : Smb) (msg : SmbMsg) :
    ∃ shd sid, (smbPutmsg env smb msg).2.1 = { smb with shd := shd, sid := sid } := by
  rcases smbPutmsg_cases env smb msg with ⟨shd, -, -, hput⟩ | ⟨n, -, -, -, -, -, hput⟩
  · exact ⟨shd, smb.sid, hput⟩
  · rw [hput]
    exact ⟨_, _, rfl⟩

theorem updatethreadLoop_frame {smb : Smb} {newmsgnum : UInt32} {n : ℕ} {next number : UInt32}
    {r : Code × Smb} (h : updatethreadLoop smb newmsgnum n next number = some r) :
    ∃ shd, r.2 = { smb with shd := shd } := by
  induction n generalizing next number with
  | zero => cases h
  | succ n ih =>
      rw [updatethreadLoop] at h
      split at h
      · cases h
        exact ⟨smb.shd, rfl⟩
      · split at h
        · cases h
          exact ⟨smb.shd, rfl⟩
        · split at h
          · cases h
          · cases h
            exact ⟨smb.shd, rfl⟩
          · split at h
            · exact ih h
            · cases h
              exact ⟨_, rfl⟩

theorem smbUpdatethread_frame {env : Env} {smb : Smb} {remsg : SmbMsg} {newmsgnum : UInt32}
    {r : Code × Smb} (h : smbUpdatethread env smb remsg newmsgnum = some r) :
    ∃ shd sid, r.2 = { smb with shd := shd, sid := sid } := by
  rw [smbUpdatethread] at h
  split at h
  · dsimp only at h
    split at h
    · cases h
      exact ⟨smb.shd, smb.sid, rfl⟩
    · split at h
      · cases h
      · cases h
        exact ⟨smb.shd, smb.sid, rfl⟩
      · cases h
        exact smbPutmsg_frame _ _ _
  · obtain ⟨shd, hr⟩ := updatethreadLoop_frame h
    exact ⟨shd, smb.sid, hr⟩

theorem inheritIds_frame (msg remsg : SmbMsg) :
    (inheritIds msg remsg).2.text = msg.text ∧ (inheritIds msg remsg).2.idx = msg.idx ∧
      (inheritIds msg remsg).2.conv.to_ = msg.conv.to_ := by
  obtain ⟨htext, hidx, hto⟩ :=
    @inheritId_frame msg.conv.replyId remsg.conv.id rfc822replyid (by decide) msg
  rw [inheritIds]
  split
  · obtain ⟨htext', hidx', hto'⟩ :=
      @inheritId_frame (inheritId msg.conv.replyId remsg.conv.id rfc822replyid msg).2.conv.ftnReply
          remsg.conv.ftnMsgid fidoreplyid (by decide) _
    exact ⟨htext'.trans htext, hidx'.trans hidx, hto'.trans hto⟩
  · exact ⟨htext, hidx, hto⟩

theorem linkReply_frame {env : Env} {smb smb' : Smb} {msg msg' remsg : SmbMsg}
    (h : linkReply env smb msg remsg = some (smb', msg')) :
    (∃ shd sid, smb' = { smb with shd := shd, sid := sid }) ∧ msg'.text = msg.text ∧
      msg'.idx = msg.idx ∧ msg'.conv.to_ = msg.conv.to_ := by
  have hmsg := inheritIds_frame (joinThread msg remsg) remsg
  rw [linkReply] at h
  split at h
  · obtain ⟨t, ht, heq⟩ := Option.map_eq_some_iff.mp h
    cases heq
    exact ⟨smbUpdatethread_frame ht, hmsg⟩
  · cases h
    exact ⟨⟨smb.shd, smb.sid, rfl⟩, hmsg⟩

/-- Linking a reply changes headers and index records of other messages, and of the
reply only its thread and header fields. -/
theorem linkThread_frame {env : Env} {smb smb' : Smb} {msg msg' : SmbMsg}
    (h : linkThread env smb msg = some (smb', msg')) :
    (∃ shd sid, smb' = { smb with shd := shd, sid := sid }) ∧ msg'.text = msg.text ∧
      msg'.idx = msg.idx ∧ msg'.conv.to_ = msg.conv.to_ := by
  rw [linkThread] at h
  dsimp only at h
  split at h
  · cases h
  · cases h
    exact ⟨⟨smb.shd, smb.sid, rfl⟩, rfl, rfl, rfl⟩
  · obtain ⟨hsmb, hmsg⟩ := linkReply_frame h
    exact ⟨hsmb, hmsg⟩

theorem text_prepareMsghdr (env : Env) (smb : Smb) (msg : SmbMsg) (storage : Storage) :
    (prepareMsghdr env smb msg storage).2.text = msg.text := by
  simp only [prepareMsghdr, SmbMsg.text, SmbMsg.dfields]
  cases msg.hashed with
  | true => rfl
  | false => simp only [Bool.false_eq_true, if_false, smbHashmsg_snd]

theorem text_smbPutmsg (env : Env) (smb : Smb) (msg : SmbMsg) :
    (smbPutmsg env smb msg).2.2.text = msg.text := by
  rcases smbPutmsghdr_cases smb.status smb.shd (smbInitIdx env smb.status.attr msg) with
    ⟨code, hcode, hput⟩ | ⟨-, -, -, hput⟩
  · simp only [smbPutmsg, hput, ne_eq, hcode, not_false_eq_true, if_true]
    rfl
  · simp only [smbPutmsg, hput, ne_eq, not_true_eq_false, if_false]
    rfl

theorem text_smbAddmsghdr (env : Env) (smb : Smb) (msg : SmbMsg) (storage : Storage) :
    (smbAddmsghdr env smb msg storage).2.2.text = msg.text := by
  rw [smbAddmsghdr]
  split
  · rfl
  · split
    · rfl
    · dsimp only
      split
      · exact (text_smbPutmsg _ _ _).trans (text_prepareMsghdr _ _ _ _)
      · exact (text_smbPutmsg _ _ _).trans (text_prepareMsghdr _ _ _ _)

/-- Adding a header leaves the data side of the base alone. -/
theorem smbAddmsghdr_frame (env : Env) (smb : Smb) (msg : SmbMsg) (storage : Storage) :
    (smbAddmsghdr env smb msg storage).2.1.sda = smb.sda ∧
      (smbAddmsghdr env smb msg storage).2.1.sdt = smb.sdt ∧
      (smbAddmsghdr env smb msg storage).2.1.sch = smb.sch ∧
      (smbAddmsghdr env smb msg storage).2.1.status.attr = smb.status.attr := by
  rcases smbAddmsghdr_cases env smb msg storage with ⟨-, hsame, -⟩ |
    ⟨-, -, -, shd, hash, -, hafter⟩ | ⟨-, -, -, hash, msg', -, -, -, -, -, hafter⟩
  · rw [hsame]
    exact ⟨rfl, rfl, rfl, rfl⟩
  · rw [hafter]
    exact ⟨rfl, rfl, rfl, rfl⟩
  · rw [hafter]
    exact ⟨rfl, rfl, rfl, rfl⟩

/-! ## What `smb_addmsg` does to the data -/

/-- The data fields of a text: body and tail, each unless it is empty. -/
def textFields (b t : ℕ) : List DField :=
  (if b = 0 then [] else [⟨textBody, 0, UInt32.ofNat b⟩]) ++
    if t = 0 then [] else [⟨textTail, UInt32.ofNat b, UInt32.ofNat t⟩]

theorem dfields_addDfield {msg : SmbMsg} (hlen : msg.dfields.length = msg.hdr.totalDfields.toNat)
    (hsmall : msg.dfields.length < 2) (type : UInt16) (text : List UInt8) :
    (addDfield msg type text).dfields = msg.dfields ++
      (if text = [] then [] else
        [⟨type, (msg.dfields.map DField.length).sum, UInt32.ofNat text.length⟩]) ∧
    (addDfield msg type text).dfields.length =
      (addDfield msg type text).hdr.totalDfields.toNat := by
  rw [addDfield]
  split
  · simp [hlen]
  · have hcount : (msg.hdr.totalDfields + 1).toNat = msg.dfields.length + 1 := by
      rw [UInt16.toNat_add, ← hlen, Nat.mod_eq_of_lt]
      · rfl
      · have h1 : (1 : UInt16).toNat = 1 := rfl
        rw [h1]
        omega
    simp only [smbDfield, SmbMsg.dfields, Bool.not_true, Bool.false_eq_true, if_false]
    rw [hcount]
    simp [SmbMsg.dfields]

@[simp] theorem offset_addDfield (msg : SmbMsg) (type : UInt16) (text : List UInt8) :
    (addDfield msg type text).hdr.offset = msg.hdr.offset := by
  rw [addDfield]
  split <;> rfl

/-- A message without data fields gets those of its text. -/
theorem dfields_addDfield_addDfield {msg : SmbMsg} (htotal : msg.hdr.totalDfields = 0)
    (body tail : List UInt8) :
    (addDfield (addDfield msg textBody body) textTail tail).dfields =
      textFields body.length tail.length := by
  have hnil : msg.dfields = [] := by
    rw [SmbMsg.dfields, htotal]
    rfl
  obtain ⟨hbody, hbodylen⟩ := @dfields_addDfield msg (by rw [hnil, htotal]; rfl) (by simp [hnil])
      textBody body
  rw [hnil, List.nil_append] at hbody
  have hshort : (addDfield msg textBody body).dfields.length < 2 := by
    rw [hbody]
    split <;> simp
  obtain ⟨htail, -⟩ := dfields_addDfield hbodylen hshort textTail tail
  rw [htail, hbody, textFields]
  by_cases hb : body = [] <;> by_cases ht : tail = [] <;> simp [hb, ht]

/-- The allocation that data gets in a base that is not hyper-allocated. -/
def dataMode (storage : Storage) : Storage := if storage = .fastalloc then .fastalloc else .selfpack

theorem dataAlloc_ok {smb : Smb} {storage storage' : Storage} {length offset : ℕ}
    {sda : List UInt16} (hattr : smb.status.attr &&& smbHyperalloc = 0)
    (h : dataAlloc storage smb length = (storage', .ok offset, sda)) :
    offset = sdtBlockLen * dataStart (dataMode storage) smb.sda (smbDatblocks length) ∧
      sda = writeAt 0 smb.sda (dataStart (dataMode storage) smb.sda (smbDatblocks length))
        (List.replicate (smbDatblocks length) 1) := by
  rw [dataAlloc, if_neg (not_not.mpr hattr)] at h
  by_cases hs : storage = .fastalloc
  · simp only [hs, if_true, Prod.mk.injEq] at h
    simpa [dataMode, hs] using smbFallocdat_ok h.2
  · simp only [hs, if_false, Prod.mk.injEq] at h
    simpa [dataMode, hs] using smbAllocdat_ok h.2

theorem dataAlloc_error {smb : Smb} {storage storage' : Storage} {length : ℕ} {code : Code}
    {sda : List UInt16} (h : dataAlloc storage smb length = (storage', .error code, sda)) :
    code ≠ .success := by
  rw [dataAlloc] at h
  split at h
  · cases h
  · split at h
    · simp only [Prod.mk.injEq] at h
      rw [(smbFallocdat_error h.2).1]
      simp
    · simp only [Prod.mk.injEq] at h
      rw [(smbAllocdat_error h.2).1]
      simp

theorem storeText_error {smb : Smb} {msg : SmbMsg} {storage : Storage} {body tail : List UInt8}
    {code : Code} (h : storeText smb msg storage body tail = .error code) : code ≠ .success := by
  rw [storeText] at h
  dsimp only at h
  split at h
  · cases h
  · split at h
    · cases h
      simp
    · split at h
      · rename_i halloc
        cases h
        exact dataAlloc_error halloc
      · cases h

/-- Storing a text marks its blocks and points the message to them. -/
theorem storeText_ok {smb smb' : Smb} {msg msg' : SmbMsg} {storage storage' : Storage}
    {body tail : List UInt8} (hattr : smb.status.attr &&& smbHyperalloc = 0)
    (htotal : msg.hdr.totalDfields = 0)
    (h : storeText smb msg storage body tail = .ok (storage', smb', msg')) :
    body.length + tail.length < 2 ^ 31 ∧ msg'.dfields = textFields body.length tail.length ∧
      ((body.length + tail.length = 0 ∧ smb' = smb ∧ msg' = msg) ∨
        (0 < body.length + tail.length ∧
          msg'.hdr.offset = UInt32.ofNat (sdtBlockLen * dataStart (dataMode storage) smb.sda
            (smbDatblocks (body.length + tail.length))) ∧
          ∃ sdt, smb' = { smb with
            sda := writeAt 0 smb.sda (dataStart (dataMode storage) smb.sda
                (smbDatblocks (body.length + tail.length)))
              (List.replicate (smbDatblocks (body.length + tail.length)) 1)
            sdt := sdt })) := by
  rw [storeText] at h
  dsimp only at h
  split at h
  · rename_i hzero
    cases h
    have hbody : body.length = 0 := by omega
    have htail : tail.length = 0 := by omega
    refine ⟨by omega, ?_, Or.inl ⟨hzero, rfl, rfl⟩⟩
    rw [hbody, htail, SmbMsg.dfields, htotal]
    rfl
  · split at h
    · cases h
    · split at h
      · cases h
      · rename_i hpos hshort mode offset sda halloc
        obtain ⟨hoffset, hsda⟩ := dataAlloc_ok hattr halloc
        cases h
        have hfields := @dfields_addDfield_addDfield (msg.placed (UInt32.ofNat offset)) htotal body
            tail
        refine ⟨by omega, hfields, Or.inr ⟨by omega, ?_, ?_⟩⟩
        · rw [offset_addDfield, offset_addDfield, ← hoffset, SmbMsg.placed]
        · exact ⟨_, by rw [← hsda]⟩

theorem recordHashes_frame (smb : Smb) (msg : SmbMsg) (hashes : List Hash) :
    (recordHashes smb msg hashes).1.sda = smb.sda ∧
      (recordHashes smb msg hashes).1.status = smb.status ∧
      (recordHashes smb msg hashes).1.sid = smb.sid ∧
      (recordHashes smb msg hashes).2.text = msg.text ∧
      (recordHashes smb msg hashes).2.idx = msg.idx ∧
      (recordHashes smb msg hashes).2.conv = msg.conv ∧
      smbGetmsghdrlen (recordHashes smb msg hashes).2 = smbGetmsghdrlen msg := by
  rw [recordHashes]
  split <;> exact ⟨rfl, rfl, rfl, rfl, rfl, rfl, rfl⟩

/-- The steps after the text leave the data alone, unless the header is refused. -/
theorem finishMsg_cases {env : Env} {smb smb' : Smb} {msg msg' : SmbMsg} {storage : Storage}
    {hashes : List Hash} {code : Code}
    (h : finishMsg env smb msg storage hashes = some (code, smb', msg')) :
    msg'.text = msg.text ∧ smb'.status.attr = smb.status.attr ∧
      (code = .success ∧ smb'.sda = smb.sda ∨
        code ≠ .success ∧
          smb'.sda = (smbFreemsgDfields smb.status.attr smb.sda msg' 1).2) := by
  rw [finishMsg] at h
  split at h
  · cases h
  · rename_i smb₂ msg₂ hlink
    obtain ⟨⟨shd, sid, hsmb₂⟩, htext, -⟩ := linkThread_frame hlink
    obtain ⟨hsda, hstatus, -, htext₃, -⟩ := recordHashes_frame smb₂ msg₂ hashes
    have hattr := congrArg SmbStatus.attr hstatus
    dsimp only at h
    generalize recordHashes smb₂ msg₂ hashes = r₃ at h hsda hattr htext₃
    obtain ⟨smb₃, msg₃⟩ := r₃
    rw [hsmb₂] at hsda hattr
    replace htext₃ := htext₃.trans htext
    dsimp only at h hsda hattr htext₃
    split at h
    · simp only [Option.some.injEq, Prod.mk.injEq] at h
      obtain ⟨rfl, rfl, rfl⟩ := h
      exact ⟨htext₃, hattr, Or.inl ⟨rfl, hsda⟩⟩
    · have hkeep := text_smbAddmsghdr env smb₃ msg₃ storage
      obtain ⟨hsda', -, -, hattr'⟩ := smbAddmsghdr_frame env smb₃ msg₃ storage
      generalize smbAddmsghdr env smb₃ msg₃ storage = r at h hkeep hsda' hattr'
      rw [giveBack] at h
      split at h
      · rename_i hok
        simp only [Option.some.injEq] at h
        rw [h] at hkeep hsda' hattr' hok
        exact ⟨hkeep.trans htext₃, hattr'.trans hattr, Or.inl ⟨hok, hsda'.trans hsda⟩⟩
      · rename_i hne
        simp only [Option.some.injEq, Prod.mk.injEq] at h
        obtain ⟨hcode, hsmb', hmsg'⟩ := h
        rw [← hsmb', ← hmsg', ← hcode]
        refine ⟨hkeep.trans htext₃, hattr'.trans hattr, Or.inr ⟨hne, ?_⟩⟩
        rw [hattr'.trans hattr, hsda'.trans hsda]

theorem giveBack_eq {r r' : Code × Smb × SmbMsg} (hcode : r.1 ≠ .success)
    (hfields : r.2.2.dfields = []) (h : giveBack r = r') :
    r'.1 = r.1 ∧ r'.2.1 = r.2.1 ∧ r'.2.2 = r.2.2 := by
  rw [giveBack, if_neg hcode, smbFreemsgDfields, hfields] at h
  rw [← h]
  exact ⟨rfl, rfl, rfl⟩

/-- The lengths of body and tail as they are stored. -/
def storedLengths (env : Env) (xlat : UInt16) (body tail : Option (List UInt8)) : ℕ × ℕ :=
  ((storedBody env xlat body (storedTail tail).length).length, (storedTail tail).length)

/-- The table after `length` bytes of data have been stored. -/
def storeBlocks (storage : Storage) (sda : List UInt16) (length : ℕ) : List UInt16 :=
  if length = 0 then sda
  else
    writeAt 0 sda (dataStart (dataMode storage) sda (smbDatblocks length))
      (List.replicate (smbDatblocks length) 1)

/-- The search for duplicates refuses the message. -/
def IsDupe (env : Env) (smb : Smb) (msg : SmbMsg) (dupechkHashes : ℕ)
    (body : Option (List UInt8)) : Prop :=
  (smbFindhash smb.hash (dupeHashes env smb (numbered smb msg) body) dupechkHashes false).1 ≠ none ∨
    (addBodyCrc env smb dupechkHashes body).1 ≠ .success

/-- The text is too long, or there is no place for it. -/
def TextRefused (smb : Smb) (storage : Storage) (length : ℕ) : Prop :=
  0x80000000 ≤ length ∨ length ≠ 0 ∧ ∃ code, (dataAlloc storage smb length).2.1 = .error code

theorem storeText_error_iff {smb : Smb} {msg : SmbMsg} {storage : Storage}
    {body tail : List UInt8} :
    (∃ code, storeText smb msg storage body tail = .error code) ↔
      TextRefused smb storage (body.length + tail.length) := by
  rw [storeText, TextRefused]
  dsimp only
  by_cases hzero : body.length + tail.length = 0
  · rw [if_pos hzero]
    simp [hzero]
  · rw [if_neg hzero]
    by_cases hlong : 0x80000000 ≤ body.length + tail.length
    · rw [if_pos hlong]
      exact ⟨fun _ ↦ Or.inl hlong, fun _ ↦ ⟨_, rfl⟩⟩
    · rw [if_neg hlong]
      generalize dataAlloc storage smb (body.length + tail.length) = r
      obtain ⟨mode, result, sda⟩ := r
      cases result with
      | error code =>
          exact ⟨fun _ ↦ Or.inr ⟨hzero, code, rfl⟩, fun _ ↦ ⟨code, rfl⟩⟩
      | ok offset => simpa [hzero] using hlong

theorem addBodyCrc_snd_of_ne {env : Env} {smb : Smb} {dupechkHashes : ℕ}
    {body : Option (List UInt8)} (h : (addBodyCrc env smb dupechkHashes body).1 ≠ .success) :
    (addBodyCrc env smb dupechkHashes body).2 = smb.sch := by
  rcases body with _ | _ | ⟨c, cs⟩
  · rfl
  · rfl
  · rw [addBodyCrc] at h ⊢
    · split
      · rename_i hcrc
        rw [if_pos hcrc] at h
        exact smbAddcrc_snd_of_ne h
      · rfl
    · simp
    · simp

section Add

variable {env : Env} {smb smb' : Smb} {msg msg' : SmbMsg} {storage : Storage} {dupechkHashes : ℕ}
  {xlat : UInt16} {body tail : Option (List UInt8)} {code : Code} {b t : ℕ}
  (hlengths : storedLengths env xlat body tail = (b, t))
  (h : smbAddmsg env smb msg storage dupechkHashes xlat body tail = some (code, smb', msg'))

include hlengths h

/-- A message is refused as a duplicate, or refused for its text after its checksum
was recorded, or its text is stored. -/
theorem smbAddmsg_steps :
    (IsDupe env smb msg dupechkHashes body ∧ code ≠ .success ∧ smb' = smb ∧
        msg' = numbered smb msg) ∨
      (¬ IsDupe env smb msg dupechkHashes body ∧ TextRefused smb storage (b + t) ∧
        code ≠ .success ∧ smb' = { smb with sch := (addBodyCrc env smb dupechkHashes body).2 } ∧
        msg' = numbered smb msg) ∨
      (¬ IsDupe env smb msg dupechkHashes body ∧ ¬ TextRefused smb storage (b + t) ∧
        ∃ storage₁ smb₁ msg₁, storeText { smb with sch := (addBodyCrc env smb dupechkHashes body).2 }
            (numbered smb msg) storage (storedBody env xlat body (storedTail tail).length)
            (storedTail tail) = .ok (storage₁, smb₁, msg₁) ∧
          finishMsg env smb₁ msg₁ storage₁ (dupeHashes env smb (numbered smb msg) body) =
            some (code, smb', msg')) := by
  simp only [storedLengths, Prod.mk.injEq] at hlengths
  obtain ⟨hb, ht⟩ := hlengths
  rw [smbAddmsg] at h
  rw [IsDupe]
  have hnil : (numbered smb msg).dfields = [] := rfl
  generalize numbered smb msg = msg₀ at h hnil ⊢
  dsimp only at h
  generalize dupeHashes env smb msg₀ body = hashes at h ⊢
  by_cases hdupe : (smbFindhash smb.hash hashes dupechkHashes false).1 ≠ none
  · rw [if_pos hdupe, Option.some.injEq] at h
    obtain ⟨h₁, h₂, h₃⟩ := giveBack_eq (by simp) hnil h
    dsimp only at h₁ h₂ h₃
    rw [h₁, h₂, h₃]
    exact Or.inl ⟨Or.inl hdupe, by simp, rfl, rfl⟩
  rw [if_neg hdupe] at h
  have hsch := @addBodyCrc_snd_of_ne env smb dupechkHashes body
  generalize addBodyCrc env smb dupechkHashes body = crc at h hsch ⊢
  by_cases hcrc : crc.1 ≠ .success
  · rw [if_pos hcrc, Option.some.injEq, hsch hcrc] at h
    obtain ⟨h₁, h₂, h₃⟩ := giveBack_eq (by exact hcrc) hnil h
    dsimp only at h₁ h₂ h₃
    rw [h₁, h₂, h₃]
    exact Or.inl ⟨Or.inr hcrc, hcrc, rfl, rfl⟩
  rw [if_neg hcrc] at h
  generalize hstore : storeText { smb with sch := crc.2 } msg₀ storage
    (storedBody env xlat body (storedTail tail).length) (storedTail tail) = stored at h
  have hrefused := @storeText_error_iff { smb with sch := crc.2 } msg₀ storage
      (storedBody env xlat body (storedTail tail).length) (storedTail tail)
  rw [hstore, hb, ht] at hrefused
  cases stored with
  | error code' =>
      have hcode := storeText_error hstore
      simp only [Option.some.injEq] at h
      obtain ⟨h₁, h₂, h₃⟩ := giveBack_eq (by exact hcode) hnil h
      dsimp only at h₁ h₂ h₃
      rw [h₁, h₂, h₃]
      exact Or.inr (Or.inl ⟨not_or.mpr ⟨hdupe, hcrc⟩, hrefused.mp ⟨code', rfl⟩, hcode, rfl, rfl⟩)
  | ok stored =>
      obtain ⟨storage₁, smb₁, msg₁⟩ := stored
      refine Or.inr (Or.inr ⟨not_or.mpr ⟨hdupe, hcrc⟩, fun hr ↦ ?_, storage₁, smb₁, msg₁, rfl, h⟩)
      obtain ⟨code', hcode'⟩ := hrefused.mpr hr
      cases hcode'

/-- A message is refused with the table as it was; or its text is stored, and given
back when the header is refused. -/
theorem smbAddmsg_cases (hattr : smb.status.attr &&& smbHyperalloc = 0) :
    smb'.status.attr = smb.status.attr ∧
      ((code ≠ .success ∧ smb'.sda = smb.sda ∧
          (IsDupe env smb msg dupechkHashes body ∨ TextRefused smb storage (b + t))) ∨
        (¬ IsDupe env smb msg dupechkHashes body ∧ ¬ TextRefused smb storage (b + t) ∧
          b + t < 2 ^ 31 ∧ msg'.dfields = textFields b t ∧
          (b + t ≠ 0 → msg'.hdr.offset = UInt32.ofNat (sdtBlockLen *
            dataStart (dataMode storage) smb.sda (smbDatblocks (b + t)))) ∧
          (code = .success ∧ smb'.sda = storeBlocks storage smb.sda (b + t) ∨
            code ≠ .success ∧ smb'.sda = (smbFreemsgDfields smb.status.attr
              (storeBlocks storage smb.sda (b + t)) msg' 1).2))) := by
  rcases smbAddmsg_steps hlengths h with ⟨hdupe, hcode, rfl, -⟩ | ⟨-, hrefused, hcode, rfl, -⟩ |
    ⟨hdupe, hrefused, storage₁, smb₁, msg₁, hstore, hfinish⟩
  · exact ⟨rfl, Or.inl ⟨hcode, rfl, Or.inl hdupe⟩⟩
  · exact ⟨rfl, Or.inl ⟨hcode, rfl, Or.inr hrefused⟩⟩
  · simp only [storedLengths, Prod.mk.injEq] at hlengths
    obtain ⟨hb, ht⟩ := hlengths
    obtain ⟨htext, hattr', hdone⟩ := finishMsg_cases hfinish
    obtain ⟨hshort, hfields, hplace⟩ := storeText_ok (by exact hattr) (by rfl) hstore
    rw [hb, ht] at hshort hfields hplace
    simp only [SmbMsg.text, Prod.mk.injEq] at htext
    obtain ⟨hsda₁, hattr₁, hoffset⟩ :
        smb₁.sda = storeBlocks storage smb.sda (b + t) ∧
          smb₁.status.attr = smb.status.attr ∧
          (b + t ≠ 0 → msg₁.hdr.offset = UInt32.ofNat (sdtBlockLen *
            dataStart (dataMode storage) smb.sda (smbDatblocks (b + t)))) := by
      rw [storeBlocks]
      rcases hplace with ⟨hzero, hsmb₁, -⟩ | ⟨hpos, hoffset, sdt, hsmb₁⟩
      · rw [if_pos hzero, hsmb₁]
        exact ⟨rfl, rfl, fun hne ↦ absurd hzero hne⟩
      · rw [if_neg (by omega), hsmb₁, hoffset]
        exact ⟨rfl, rfl, fun _ ↦ rfl⟩
    rw [hsda₁, hattr₁] at hdone
    refine ⟨hattr'.trans hattr₁, Or.inr ⟨hdupe, hrefused, hshort, htext.2.trans hfields, ?_, hdone⟩⟩
    rw [htext.1]
    exact hoffset

end Add

/-! ## When an addition succeeds -/

theorem addDfield_frame (msg : SmbMsg) (type : UInt16) (text : List UInt8) :
    (addDfield msg type text).idx = msg.idx ∧ (addDfield msg type text).conv = msg.conv ∧ (addDfield msg type text).hfield = msg.hfield ∧
      (addDfield msg type text).hdr.threadBack = msg.hdr.threadBack ∧
      (addDfield msg type text).hdr.totalDfields.toNat ≤ msg.hdr.totalDfields.toNat + 1 := by
  rw [addDfield]
  split
  · exact ⟨rfl, rfl, rfl, rfl, Nat.le_succ _⟩
  · refine ⟨rfl, rfl, rfl, rfl, ?_⟩
    have hadd : (msg.hdr.totalDfields + 1).toNat ≤ msg.hdr.totalDfields.toNat + 1 := by
      rw [UInt16.toNat_add]
      exact Nat.mod_le _ _
    exact hadd

/-- What storing the text leaves of base and message. -/
theorem storeText_frame {smb smb' : Smb} {msg msg' : SmbMsg} {storage storage' : Storage}
    {body tail : List UInt8} (h : storeText smb msg storage body tail = .ok (storage', smb', msg')) :
    (∃ sda sdt, smb' = { smb with sda := sda, sdt := sdt }) ∧ msg'.idx = msg.idx ∧
      msg'.conv = msg.conv ∧ msg'.hfield = msg.hfield ∧ msg'.hdr.threadBack = msg.hdr.threadBack ∧
      msg'.hdr.totalDfields.toNat ≤ msg.hdr.totalDfields.toNat + 2 := by
  rw [storeText] at h
  dsimp only at h
  split at h
  · cases h
    exact ⟨⟨smb.sda, smb.sdt, rfl⟩, rfl, rfl, rfl, rfl, Nat.le_add_right _ 2⟩
  · split at h
    · cases h
    · split at h
      · cases h
      · rename_i mode offset sda halloc
        cases h
        obtain ⟨hidx, hconv, hhfield, hback, htotal⟩ := addDfield_frame (msg.placed (UInt32.ofNat offset))
          textBody body
        obtain ⟨hidx', hconv', hhfield', hback', htotal'⟩ := addDfield_frame
          (addDfield (msg.placed (UInt32.ofNat offset)) textBody body) textTail tail
        exact ⟨⟨_, _, rfl⟩, hidx'.trans hidx, hconv'.trans hconv, hhfield'.trans hhfield,
          hback'.trans hback, htotal'.trans (Nat.add_le_add_right htotal 1)⟩

/-- A message that was added has a header where `smb_freemsg` accepts one; without a
recipient its place is the caller's. -/
theorem finishMsg_validHdrOffset {env : Env} {smb smb' : Smb} {msg msg' : SmbMsg}
    {storage : Storage} {hashes : List Hash}
    (h : finishMsg env smb msg storage hashes = some (.success, smb', msg')) :
    smbValidHdrOffset smb'.status msg'.idx.offset.toNat = true ↔
      (msg.conv.to_ = none → smbValidHdrOffset smb.status msg.idx.offset.toNat = true) := by
  rw [finishMsg] at h
  split at h
  · cases h
  · rename_i smb₂ msg₂ hlink
    obtain ⟨⟨shd, sid, hsmb₂⟩, -, hidx, hto⟩ := linkThread_frame hlink
    obtain ⟨-, hstatus₃, -, -, hidx₃, hconv₃, -⟩ := recordHashes_frame smb₂ msg₂ hashes
    dsimp only at h
    generalize recordHashes smb₂ msg₂ hashes = r₃ at h hstatus₃ hidx₃ hconv₃
    obtain ⟨smb₃, msg₃⟩ := r₃
    rw [hsmb₂] at hstatus₃
    rw [← hconv₃] at hto
    replace hidx₃ := hidx₃.trans hidx
    dsimp only at h hstatus₃ hidx₃ hto
    split at h
    · rename_i hnone
      simp only [Option.some.injEq, Prod.mk.injEq, true_and] at h
      obtain ⟨rfl, rfl⟩ := h
      have hnone : msg.conv.to_ = none := hto.symm.trans hnone
      rw [hstatus₃, hidx₃]
      exact ⟨fun hv _ ↦ hv, fun hv ↦ hv hnone⟩
    · rename_i hsome
      have hsome : msg.conv.to_ ≠ none := fun hnone ↦ hsome (hto.trans hnone)
      refine ⟨fun _ hnone ↦ absurd hnone hsome, fun _ ↦ ?_⟩
      rcases smbAddmsghdr_cases env smb₃ msg₃ storage with ⟨hcode, -⟩ | ⟨-, -, hcode, -⟩ |
        ⟨-, -, -, hash, msgPut, -, -, hvalid, -, -, hafter⟩
      · rw [giveBack, if_neg hcode] at h
        simp only [Option.some.injEq, Prod.mk.injEq] at h
        exact absurd h.1 hcode
      · rw [giveBack, if_neg hcode] at h
        simp only [Option.some.injEq, Prod.mk.injEq] at h
        exact absurd h.1 hcode
      · rw [hafter, giveBack, if_pos rfl] at h
        simp only [Option.some.injEq, Prod.mk.injEq, true_and] at h
        obtain ⟨rfl, rfl⟩ := h
        exact hvalid

theorem smbAddmsg_validHdrOffset {env : Env} {smb smb' : Smb} {msg msg' : SmbMsg}
    {storage : Storage} {dupechkHashes : ℕ} {xlat : UInt16} {body tail : Option (List UInt8)}
    (h : smbAddmsg env smb msg storage dupechkHashes xlat body tail = some (.success, smb', msg')) :
    smbValidHdrOffset smb'.status msg'.idx.offset.toNat = true ↔
      (msg.conv.to_ = none → smbValidHdrOffset smb.status msg.idx.offset.toNat = true) := by
  rcases smbAddmsg_steps rfl h with ⟨-, hcode, -⟩ | ⟨-, -, hcode, -⟩ |
    ⟨-, -, storage₁, smb₁, msg₁, hstore, hfinish⟩
  · exact absurd rfl hcode
  · exact absurd rfl hcode
  · obtain ⟨⟨sda, sdt, hsmb₁⟩, hidx, hconv, -⟩ := storeText_frame hstore
    rw [finishMsg_validHdrOffset hfinish, hconv, hsmb₁, hidx]
    rfl

/-- Without references to another message nothing is linked. -/
theorem linkThread_of_none (env : Env) (smb : Smb) {msg : SmbMsg} (hback : msg.hdr.threadBack = 0)
    (hreply : msg.conv.replyId = none) (hftn : msg.conv.ftnReply = none) :
    linkThread env smb msg = some (smb, msg) := by
  have hzero : threadBackOf env smb msg = 0 := by
    simp [threadBackOf, hback, hreply, hftn]
  rw [linkThread]
  simp only [hzero, readOriginal, if_true]
  rw [← hback]

/-- A message that is no reply is added when nothing speaks against it. -/
theorem smbAddmsg_success {env : Env} {smb : Smb} {msg : SmbMsg} {storage : Storage}
    {dupechkHashes : ℕ} {xlat : UInt16} {body tail : Option (List UInt8)} {b t : ℕ}
    (hlengths : storedLengths env xlat body tail = (b, t))
    (hdupe : ¬ IsDupe env smb msg dupechkHashes body) (hplace : ¬ TextRefused smb storage (b + t))
    (hto : msg.conv.to_ ≠ none) (hback : msg.hdr.threadBack = 0)
    (hreply : msg.conv.replyId = none) (hftn : msg.conv.ftnReply = none)
    (hlen : msghdrSize + 2 * dfieldSize +
      (msg.hfield.map fun h ↦ hfieldSize + h.length.toNat).sum ≤ smbMaxHdrLen)
    (hcount : smb.sid.length = smb.status.totalMsgs.toNat) (hsmall : smb.sid.length < 2 ^ 31)
    (hoff : smb.status.headerOffset = 32) :
    ∃ smb' msg', smbAddmsg env smb msg storage dupechkHashes xlat body tail =
        some (.success, smb', msg') ∧
      smb'.status = { smb.status with
        lastMsg := smb.status.lastMsg + 1
        totalMsgs := smb.status.totalMsgs + 1 } ∧
      smb'.sid.length = smb.sid.length + 1 := by
  simp only [storedLengths, Prod.mk.injEq] at hlengths
  obtain ⟨hb, ht⟩ := hlengths
  obtain ⟨hdupe, hcrc⟩ := not_or.mp hdupe
  rw [smbAddmsg]
  dsimp only
  rw [if_neg hdupe, if_neg hcrc]
  generalize hstore : storeText _ (numbered smb msg) storage
    (storedBody env xlat body (storedTail tail).length) (storedTail tail) = stored
  cases stored with
  | error code =>
      have hrefused := storeText_error_iff.mp ⟨code, hstore⟩
      rw [hb, ht] at hrefused
      exact absurd hrefused hplace
  | ok stored =>
      obtain ⟨storage₁, smb₁, msg₁⟩ := stored
      obtain ⟨⟨sda, sdt, hsmb₁⟩, -, hconv, hhfield, hback₁, htotal⟩ := storeText_frame hstore
      have hconv : msg₁.conv = msg.conv := hconv
      have hhfield : msg₁.hfield = msg.hfield := hhfield
      have hback₁ : msg₁.hdr.threadBack = msg.hdr.threadBack := hback₁
      have htotal : msg₁.hdr.totalDfields.toNat ≤ 2 := htotal
      have hlink := @linkThread_of_none env smb₁ (stampTimes env msg₁) (hback₁.trans hback)
          (by rw [← hreply, ← hconv]; rfl) (by rw [← hftn, ← hconv]; rfl)
      dsimp only
      rw [finishMsg, hlink]
      dsimp only
      obtain ⟨-, hstatus₂, hsid₂, -, -, hconv₂, hlen₂⟩ :=
        recordHashes_frame smb₁ (stampTimes env msg₁) (dupeHashes env smb (numbered smb msg) body)
      generalize recordHashes smb₁ (stampTimes env msg₁)
        (dupeHashes env smb (numbered smb msg) body) = r at hstatus₂ hsid₂ hconv₂ hlen₂ ⊢
      obtain ⟨smb₂, msg₂⟩ := r
      dsimp only at hstatus₂ hsid₂ hconv₂ hlen₂ ⊢
      rw [hsmb₁] at hstatus₂ hsid₂
      have hto₂ : msg₂.conv.to_ ≠ none := by
        rw [hconv₂]
        exact hconv ▸ hto
      have hlen₂ : smbGetmsghdrlen msg₂ ≤ smbMaxHdrLen := by
        refine le_trans (le_of_eq hlen₂) (le_trans ?_ hlen)
        change msghdrSize + msg₁.hdr.totalDfields.toNat * dfieldSize +
          (msg₁.hfield.map fun h ↦ hfieldSize + h.length.toNat).sum ≤ _
        rw [hhfield]
        exact Nat.add_le_add_right (Nat.add_le_add_left (Nat.mul_le_mul_right _ htotal) _) _
      have hfst := @smbAddmsghdr_fst env _ _ storage₁ hlen₂ (by rw [hsid₂, hstatus₂]; exact hcount)
          (by rw [hsid₂]; exact hsmall) (by rw [hstatus₂]; exact hoff)
      rw [if_neg hto₂, giveBack, if_pos hfst]
      rcases smbAddmsghdr_cases env smb₂ msg₂ storage₁ with ⟨hcode, -⟩ | ⟨-, -, hcode, -⟩ |
        ⟨-, -, -, hash, msg', -, -, -, -, -, hafter⟩
      · exact absurd hfst hcode
      · exact absurd hfst hcode
      · rw [hafter]
        refine ⟨_, _, rfl, ?_, ?_⟩
        · dsimp only
          rw [hstatus₂]
        · dsimp only
          rw [hsid₂, List.length_append]
          rfl

/-- A message with a recipient. -/
def addressedMsg : SmbMsg := (smbHfieldAdd (fun _ ↦ true) {} recipient [97] false).2

end Synchronet.Smblib
