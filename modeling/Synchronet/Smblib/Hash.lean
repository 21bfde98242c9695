import Synchronet.Smblib.Index

/-!
# Message hashes (smbhash.c)

The `.hash` file records checksums of message texts and identifiers.  A hash
whose sources agree in length, pre-processing and every checksum that both
records carry stands for the same text.
-/

namespace Synchronet.Smblib

def smbHashCrc16 : UInt8 := 0x01
def smbHashCrc32 : UInt8 := 0x02
def smbHashMd5 : UInt8 := 0x04
def smbHashMask : UInt8 := 0x07
def smbHashMarked : UInt8 := 0x10
def smbHashStripCtrlA : UInt8 := 0x20
def smbHashStripWsp : UInt8 := 0x40
def smbHashLowercase : UInt8 := 0x80
def smbHashProcMask : UInt8 := 0xe0
def smbHashProcCompMask : UInt8 := 0xc0

def hashSourceBody : UInt8 := 0
def hashSourceMsgId : UInt8 := 1
def hashSourceFtnId : UInt8 := 2
def hashSourceSubject : UInt8 := 3

/-- `SMB_HASH_SOURCE_DUPE`: bodies, message IDs and FTN IDs. -/
def smbHashSourceDupe : ℕ := 0b111

/-! ## Searching and adding -/

/-- The comparison inside `smb_findhash`. -/
def hashMatches (compare hash : Hash) : Bool :=
  let common := compare.flags &&& hash.flags
  compare.source = hash.source && compare.length = hash.length &&
    compare.flags &&& smbHashMarked = 0 &&
    compare.flags &&& smbHashProcCompMask = hash.flags &&& smbHashProcCompMask &&
    common &&& smbHashMask ≠ 0 &&
    (common &&& smbHashCrc16 = 0 || compare.crc16 = hash.crc16) &&
    (common &&& smbHashCrc32 = 0 || compare.crc32 = hash.crc32) &&
    (common &&& smbHashMd5 = 0 || compare.md5 = hash.md5)

/-- The loop of `smb_findhash` over the hash file: the last match with the list of
compared hashes, in which every match is marked; without `mark` the first match
ends the loop. -/
def findhashLoop (sourceMask : ℕ) (mark : Bool) :
    List Hash → List Hash → Option Hash → Option Hash × List Hash
  | [], compare, found => (found, compare)
  | hash :: rest, compare, found =>
      if hash.flags = 0 ∨ !sourceMask.testBit hash.source.toNat then
        findhashLoop sourceMask mark rest compare found
      else
        match compare.findIdx? (hashMatches · hash) with
        | none => findhashLoop sourceMask mark rest compare found
        | some c =>
            if !mark then (some hash, compare)
            else
              findhashLoop sourceMask mark rest
                (compare.modify c fun h ↦ { h with flags := h.flags ||| smbHashMarked })
                (some hash)

/-- `smb_findhash`; `none` is `SMB_ERR_NOT_FOUND`. -/
def smbFindhash (table compare : List Hash) (sourceMask : ℕ) (mark : Bool) :
    Option Hash × List Hash :=
  if compare = [] ∨ sourceMask = 0 then (none, compare)
  else findhashLoop sourceMask mark table compare none

def smbAddhashes (table hashes : List Hash) (skipMarked : Bool) : List Hash :=
  table ++ hashes.filter fun h ↦ !(skipMarked && h.flags &&& smbHashMarked ≠ 0)

/-! ## Calculating -/

def stripCtrla : List UInt8 → List UInt8
  | [] => []
  | [c] => if c = 1 then [] else [c]
  | c :: d :: rest => if c = 1 then stripCtrla rest else c :: stripCtrla (d :: rest)

def stripChars (set src : List UInt8) : List UInt8 := src.filter (!set.contains ·)

/-- `smb_hash`; empty data has no hash. -/
def smbHash (env : Env) (number time : UInt32) (source flags : UInt8) (data : List UInt8) :
    Option Hash :=
  if data = [] then none
  else
    some {
      number := number
      time := time
      length := UInt32.ofNat data.length
      source := source
      flags := flags
      crc16 := if flags &&& smbHashCrc16 ≠ 0 then env.crc16 data else 0
      crc32 := if flags &&& smbHashCrc32 ≠ 0 then env.crc32 data else 0
      md5 := if flags &&& smbHashMd5 ≠ 0 then env.md5 data else List.replicate 16 0 }

def smbHashstr (env : Env) (number time : UInt32) (source flags : UInt8) (str : List UInt8) :
    Option Hash :=
  let p := if flags &&& smbHashStripCtrlA ≠ 0 then stripCtrla str else str
  let p := if flags &&& smbHashStripWsp ≠ 0 then stripChars [32, 9, 13, 10] p else p
  let p := if flags &&& smbHashLowercase ≠ 0 then strlwr p else p
  smbHash env number time source flags p

/-- The subject behind its prefixes: everything up to a colon that no space
precedes, with the white space behind it, over and over. -/
def subjectText : ℕ → List UInt8 → List UInt8
  | 0, p => p
  | n + 1, p =>
      let word := p.takeWhile fun c ↦ c ≠ 58 && c ≠ 32
      match p.drop word.length with
      | 58 :: rest => subjectText n (rest.dropWhile isspace)
      | _ => p

def smbMsghashes (env : Env) (msg : SmbMsg) (body : Option (List UInt8)) (sourceMask : ℕ) :
    List Hash :=
  let flags := smbHashMask
  let hashstr (source flags : UInt8) (str : Option (List UInt8)) : Option Hash :=
    if sourceMask.testBit source.toNat then
      str.bind (smbHashstr env msg.hdr.number env.now source flags)
    else none
  [ hashstr hashSourceMsgId flags msg.conv.id,
    hashstr hashSourceFtnId flags msg.conv.ftnMsgid,
    hashstr hashSourceBody (flags ||| smbHashStripWsp ||| smbHashStripCtrlA) body,
    hashstr hashSourceSubject flags (msg.conv.subj.map fun s ↦ subjectText s.length s)
  ].filterMap id

/-- Whether the hashes of messages are kept at all. -/
def hashing (attr : UInt16) : Bool := attr &&& (smbEmail ||| smbNohash) = 0

/-- `smb_hashmsg` without a text and with `update`, as `smb_addmsghdr` calls it: the
hashes that are not in the file yet are added. -/
def smbHashmsg (env : Env) (attr : UInt16) (table : List Hash) (msg : SmbMsg) :
    List Hash × SmbMsg :=
  if !hashing attr then (table, msg)
  else
    let r := smbFindhash table (smbMsghashes env msg none smbHashSourceDupe) smbHashSourceDupe true
    (smbAddhashes table r.2 true, { msg with hashed := true })

/-- `smb_getmsgidx_by_hash` for an ASCIIZ string. -/
def smbGetmsgidxByHash (env : Env) (table : List Hash) (sid : List IdxRec) (msg : SmbMsg)
    (source flags : UInt8) (str : List UInt8) : Except Code SmbMsg :=
  match smbHashstr env 0 0 source flags str with
  | none => .error .errMem
  | some hash =>
      match (smbFindhash table [hash] (2 ^ source.toNat) false).1 with
      | none => .error .errNotFound
      | some found =>
          if found.number = 0 then .error .failure
          else smbGetmsgidx sid { msg with hdr := { msg.hdr with number := found.number } }

def smbGetmsgidxByMsgid (env : Env) (table : List Hash) (sid : List IdxRec) (msg : SmbMsg)
    (id : List UInt8) : Except Code SmbMsg :=
  smbGetmsgidxByHash env table sid msg hashSourceMsgId smbHashMask id

def smbGetmsgidxByFtnid (env : Env) (table : List Hash) (sid : List IdxRec) (msg : SmbMsg)
    (id : List UInt8) : Except Code SmbMsg :=
  smbGetmsgidxByHash env table sid msg hashSourceFtnId smbHashMask id

/-! ## What is kept -/

/-- `smb_hashmsg` changes nothing of the message but its flag. -/
theorem smbHashmsg_snd (env : Env) (attr : UInt16) (table : List Hash) (msg : SmbMsg) :
    (smbHashmsg env attr table msg).2 = { msg with hashed := msg.hashed || hashing attr } := by
  rw [smbHashmsg]
  cases hashing attr <;> simp

/-- Hashes are only added behind those the file has. -/
theorem prefix_smbAddhashes (table hashes : List Hash) (skipMarked : Bool) :
    table <+: smbAddhashes table hashes skipMarked := List.prefix_append _ _

end Synchronet.Smblib
