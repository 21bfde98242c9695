import Synchronet.Smblib.Alloc
import Synchronet.Smblib.Message

/-!
# The header file (smblib.c)

`smb_putmsghdr` writes the header record of a message and `smb_getmsghdr` reads
it back.  A record holds the fixed portion, the data fields and then the header
fields, whose number is not recorded: the reader goes on until it has passed the
length of the record.  The rest of the last block is padding.
-/

namespace Synchronet.Smblib

open RecordFile LittleEndian

/-! ## Records -/

def encodeHdr (h : MsgHdr) : List UInt8 :=
  le 4 h.id.toNat ++ le 2 h.type.toNat ++ le 2 h.version.toNat ++ le 2 h.length.toNat ++
    le 2 h.attr.toNat ++ le 4 h.auxattr.toNat ++ le 4 h.netattr.toNat ++
    le 4 h.whenWritten.time.toNat ++ le 2 h.whenWritten.zone.toNat ++
    le 4 h.whenImported.time.toNat ++ le 2 h.whenImported.zone.toNat ++
    le 4 h.number.toNat ++ le 4 h.threadBack.toNat ++ le 4 h.threadNext.toNat ++
    le 4 h.threadFirst.toNat ++ le 2 h.deliveryAttempts.toNat ++ le 2 h.reserved.toNat ++
    le 4 h.threadId.toNat ++ le 4 h.timesDownloaded.toNat ++ le 4 h.lastDownloaded.toNat ++
    le 4 h.offset.toNat ++ le 2 h.totalDfields.toNat

def decodeHdr (bs : List UInt8) : MsgHdr where
  id := UInt32.ofNat (field bs 0 4)
  type := UInt16.ofNat (field bs 4 2)
  version := UInt16.ofNat (field bs 6 2)
  length := UInt16.ofNat (field bs 8 2)
  attr := UInt16.ofNat (field bs 10 2)
  auxattr := UInt32.ofNat (field bs 12 4)
  netattr := UInt32.ofNat (field bs 16 4)
  whenWritten := ⟨UInt32.ofNat (field bs 20 4), UInt16.ofNat (field bs 24 2)⟩
  whenImported := ⟨UInt32.ofNat (field bs 26 4), UInt16.ofNat (field bs 30 2)⟩
  number := UInt32.ofNat (field bs 32 4)
  threadBack := UInt32.ofNat (field bs 36 4)
  threadNext := UInt32.ofNat (field bs 40 4)
  threadFirst := UInt32.ofNat (field bs 44 4)
  deliveryAttempts := UInt16.ofNat (field bs 48 2)
  reserved := UInt16.ofNat (field bs 50 2)
  threadId := UInt32.ofNat (field bs 52 4)
  timesDownloaded := UInt32.ofNat (field bs 56 4)
  lastDownloaded := UInt32.ofNat (field bs 60 4)
  offset := UInt32.ofNat (field bs 64 4)
  totalDfields := UInt16.ofNat (field bs 68 2)

def encodeDfield (d : DField) : List UInt8 :=
  le 2 d.type.toNat ++ le 4 d.offset.toNat ++ le 4 d.length.toNat

def decodeDfield (bs : List UInt8) : DField :=
  ⟨UInt16.ofNat (field bs 0 2), UInt32.ofNat (field bs 2 4), UInt32.ofNat (field bs 6 4)⟩

def encodeHfield (h : HField) : List UInt8 :=
  le 2 h.type.toNat ++ le 2 h.length.toNat ++ h.bytes

/-- The header record of a message without its padding. -/
def encodeMsg (msg : SmbMsg) : List UInt8 :=
  encodeHdr msg.hdr ++ msg.dfields.flatMap encodeDfield ++ msg.hfield.flatMap encodeHfield

@[simp] theorem length_encodeHdr (h : MsgHdr) : (encodeHdr h).length = msghdrSize := by
  unfold encodeHdr
  simp only [List.length_append]
  simp only [length_le]

@[simp] theorem length_encodeDfield (d : DField) : (encodeDfield d).length = dfieldSize := by
  simp [encodeDfield]

theorem decodeHdr_encodeHdr (h : MsgHdr) (rest : List UInt8) :
    decodeHdr (encodeHdr h ++ rest) = h := by
  unfold encodeHdr decodeHdr
  simp only [List.append_assoc]
  simp (disch := decide) only [field_skip, Nat.reduceSub]
  simp only [field_zero]
  simp only [ofNat_toNat_mod_uint16, ofNat_toNat_mod_uint32]

-- comparing whole records symbol by symbol is never what a proof needs
attribute [irreducible] encodeHdr decodeHdr

theorem decodeDfield_encodeDfield (d : DField) (rest : List UInt8) :
    decodeDfield (encodeDfield d ++ rest) = d := by
  rw [encodeDfield, decodeDfield]
  simp only [List.append_assoc]
  simp (disch := decide) only [field_skip, Nat.reduceSub]
  simp only [field_zero]
  simp only [ofNat_toNat_mod_uint16, ofNat_toNat_mod_uint32]

theorem HField.Exact.bytes_eq {h : HField} (hex : h.Exact) : h.dat = some h.bytes := by
  obtain ⟨d, hd, hlen⟩ := hex
  rw [HField.bytes, hd, Option.getD_some, ← hlen, List.take_length]

theorem HField.Exact.length_bytes {h : HField} (hex : h.Exact) :
    h.bytes.length = h.length.toNat := by
  obtain ⟨d, hd, hlen⟩ := hex
  rw [HField.bytes, hd, Option.getD_some, ← hlen, List.take_length]

/-! ## Writing -/

def smbPutmsghdr (status : SmbStatus) (shd : List UInt8) (msg : SmbMsg) :
    Code × List UInt8 × SmbMsg :=
  if !smbValidHdrOffset status msg.idx.offset.toNat then (.errHdrOffset, shd, msg)
  else
    let hdrlen := smbGetmsghdrlen msg
    if smbMaxHdrLen < hdrlen then (.errHdrLen, shd, msg)
    else if smbHdrblocks msg.hdr.length.toNat < smbHdrblocks hdrlen then (.errHdrLen, shd, msg)
    else
      let msg := { msg with
        hdr := { msg.hdr with length := UInt16.ofNat hdrlen, id := shdHeaderId } }
      let padding := List.replicate (padLengthForAlignment hdrlen shdBlockLen) 0
      (.success, writeAt 0 shd (msg.idx.offset.toNat - smbHdrSize) (encodeMsg msg ++ padding), msg)

/-! ## Reading -/

/-- The loop over the header fields.  `l` bytes of the record have been read; each
round reads at least four more, so that `hlen` rounds are enough. -/
def getHfields (shd : List UInt8) (base hlen : ℕ) :
    ℕ → ℕ → Convenience → Except Code (List HField × Convenience)
  | 0, _, conv => .ok ([], conv)
  | n + 1, l, conv =>
      if hlen ≤ l then .ok ([], conv)
      else
        let h := readAt shd (base + l) hfieldSize
        if h.length ≠ hfieldSize then .error .errRead
        else
          let type := UInt16.ofNat (field h 0 2)
          let length := UInt16.ofNat (field h 2 2)
          let dat := readAt shd (base + l + hfieldSize) length.toNat
          if dat.length ≠ length.toNat then .error .errRead
          else
            match getHfields shd base hlen n (l + hfieldSize + length.toNat)
                (setConveniencePtr conv type dat) with
            | .ok (hs, conv) => .ok (⟨type, length, some dat⟩ :: hs, conv)
            | .error code => .error code

/-- The loop that discards the rest of the block, for a number of rounds; `none`
when it has not ended.  `fgetc` does not move at the end of the file. -/
def discardBlock (headerOffset fileLength : ℕ) : ℕ → ℕ → Option ℕ
  | 0, _ => none
  | n + 1, offset =>
      if (offset - headerOffset) % shdBlockLen = 0 then some offset
      else discardBlock headerOffset fileLength n
        (if offset < fileLength then offset + 1 else offset)

/-- The convenience pointers that must point to something. -/
def Convenience.defaults (c : Convenience) : Convenience :=
  { c with
    from_ := some (c.from_.getD [])
    to_ := some (c.to_.getD [])
    subj := some (c.subj.getD []) }

/-- `smb_getmsghdr` for a message whose `idx.offset` is set; `none` when it does
not return. -/
def smbGetmsghdr (status : SmbStatus) (shd : List UInt8) (msg : SmbMsg) :
    Option (Except Code SmbMsg) :=
  if !smbValidHdrOffset status msg.idx.offset.toNat then some (.error .errHdrOffset)
  else
    let base := msg.idx.offset.toNat - smbHdrSize
    let bs := readAt shd base msghdrSize
    if bs.length ≠ msghdrSize then some (.error .errRead)
    else
      let hdr := decodeHdr bs
      if hdr.id ≠ shdHeaderId then some (.error .errHdrId)
      else if hdr.version < 0x110 then some (.error .errHdrVer)
      else
        let total := hdr.totalDfields.toNat
        let ds := readAt shd (base + msghdrSize) (total * dfieldSize)
        if ds.length ≠ total * dfieldSize then some (.error .errRead)
        else
          let dfield := (List.range total).map fun x ↦ decodeDfield (ds.drop (x * dfieldSize))
          let l := msghdrSize + total * dfieldSize
          match getHfields shd base hdr.length.toNat hdr.length.toNat l {} with
          | .error code => some (.error code)
          | .ok (hfield, conv) =>
              let l := l + (hfield.map fun h ↦ hfieldSize + h.length.toNat).sum
              match discardBlock status.headerOffset.toNat (smbHdrSize + shd.length) shdBlockLen
                  (msg.idx.offset.toNat + l) with
              | none => none
              | some _ =>
                  some (.ok { idx := msg.idx, offset := msg.offset, hdr := hdr, dfield := dfield,
                              hfield := hfield, conv := conv.defaults })

/-! ## What the reader makes of a record -/

theorem length_flatMap_encodeDfield (ds : List DField) :
    (ds.flatMap encodeDfield).length = ds.length * dfieldSize := by
  induction ds with
  | nil => rfl
  | cons d ds ih =>
      rw [List.flatMap_cons, List.length_append, length_encodeDfield, ih, List.length_cons,
        Nat.succ_mul, Nat.add_comm]

theorem length_encodeHfield {h : HField} (hex : h.Exact) :
    (encodeHfield h).length = hfieldSize + h.length.toNat := by
  simp only [encodeHfield, List.length_append, length_le, hex.length_bytes, hfieldSize]

theorem length_flatMap_encodeHfield {hs : List HField} (hex : ∀ h ∈ hs, h.Exact) :
    (hs.flatMap encodeHfield).length = (hs.map fun h ↦ hfieldSize + h.length.toNat).sum := by
  induction hs with
  | nil => rfl
  | cons h hs ih =>
      rw [List.forall_mem_cons] at hex
      rw [List.flatMap_cons, List.length_append, length_encodeHfield hex.1, ih hex.2,
        List.map_cons, List.sum_cons]

theorem length_encodeMsg {msg : SmbMsg} (hex : ∀ h ∈ msg.hfield, h.Exact)
    (hdf : msg.dfields.length = msg.hdr.totalDfields.toNat) :
    (encodeMsg msg).length = smbGetmsghdrlen msg := by
  rw [encodeMsg, List.length_append, List.length_append, length_encodeHdr,
    length_flatMap_encodeDfield, length_flatMap_encodeHfield hex, hdf, smbGetmsghdrlen]

theorem decodeDfield_flatMap (ds : List DField) :
    ((List.range ds.length).map fun x ↦
      decodeDfield ((ds.flatMap encodeDfield).drop (x * dfieldSize))) = ds := by
  induction ds with
  | nil => rfl
  | cons d ds ih =>
      have hrest (x : ℕ) : (encodeDfield d ++ ds.flatMap encodeDfield).drop ((x + 1) * dfieldSize) =
          (ds.flatMap encodeDfield).drop (x * dfieldSize) := by
        rw [Nat.succ_mul, Nat.add_comm, ← List.drop_drop,
          List.drop_left' (length_encodeDfield d)]
      rw [List.flatMap_cons, List.length_cons, List.range_succ_eq_map, List.map_cons, List.map_map,
        Nat.zero_mul, List.drop_zero, decodeDfield_encodeDfield]
      simp only [Function.comp_def, Nat.succ_eq_add_one, hrest, ih]

/-- The convenience variables after the header fields have been read. -/
def Convenience.read (c : Convenience) (hs : List HField) : Convenience :=
  hs.foldl (fun c h ↦ setConveniencePtr c h.type h.bytes) c

/-- The reader finds the header fields one after the other, and stops behind the
last because the length of the record is reached. -/
theorem getHfields_flatMap {shd rest : List UInt8} {base hlen : ℕ} {hs : List HField}
    (hex : ∀ h ∈ hs, h.Exact) (n l : ℕ) (conv : Convenience)
    (hdrop : shd.drop (base + l) = hs.flatMap encodeHfield ++ rest)
    (hlen_eq : hlen = l + (hs.map fun h ↦ hfieldSize + h.length.toNat).sum) (hn : hlen ≤ l + n) :
    getHfields shd base hlen n l conv = .ok (hs, conv.read hs) := by
  induction hs generalizing n l conv with
  | nil =>
      cases n with
      | zero => rfl
      | succ n => rw [getHfields, if_pos (by simp [hlen_eq])]; rfl
  | cons h hs ih =>
      rw [List.forall_mem_cons] at hex
      rw [List.map_cons, List.sum_cons] at hlen_eq
      simp only [hfieldSize] at hlen_eq
      obtain ⟨n, rfl⟩ : ∃ m, n = m + 1 := ⟨n - 1, by omega⟩
      rw [List.flatMap_cons, List.append_assoc, encodeHfield, List.append_assoc] at hdrop
      have hhead := readAt_of_drop_eq (n := hfieldSize) hdrop (by simp)
      have hdrop' := drop_add_of_drop_eq (n := hfieldSize) hdrop (by simp)
      have hdat := readAt_of_drop_eq hdrop' hex.1.length_bytes
      have hdropNext := drop_add_of_drop_eq hdrop' hex.1.length_bytes
      have htype : UInt16.ofNat (field (le 2 h.type.toNat ++ le 2 h.length.toNat) 0 2) = h.type := by
        rw [field_zero, ofNat_toNat_mod_uint16]
      have hlength : UInt16.ofNat (field (le 2 h.type.toNat ++ le 2 h.length.toNat) 2 2) =
          h.length := by
        have := field_zero 2 h.length.toNat []
        rw [List.append_nil] at this
        rw [field_skip _ _ _ _ _ (le_refl 2), Nat.sub_self, this, ofNat_toNat_mod_uint16]
      have hrec := ih hex.2 n (l + hfieldSize + h.length.toNat)
        (setConveniencePtr conv h.type h.bytes)
        (by rw [← hdropNext]; congr 1; omega) (by simp only [hfieldSize]; omega)
        (by simp only [hfieldSize]; omega)
      rw [getHfields, if_neg (by omega)]
      simp only [hhead, htype, hlength, hdat, hex.1.length_bytes, List.length_append, length_le,
        ne_eq, not_true_eq_false, if_false, hrec]
      rw [← hex.1.bytes_eq]
      rfl

/-- The loop ends at the next block boundary, unless the file ends before it. -/
theorem discardBlock_eq_some_iff {headerOffset fileLength n offset p : ℕ}
    (ho : headerOffset ≤ offset) :
    discardBlock headerOffset fileLength n offset = some p ↔
      p = offset + padLengthForAlignment (offset - headerOffset) shdBlockLen ∧
        p < offset + n ∧ (p = offset ∨ p ≤ fileLength) := by
  simp only [padLengthForAlignment, shdBlockLen]
  induction n generalizing offset with
  | zero =>
      simp only [discardBlock, reduceCtorEq, false_iff]
      omega
  | succ n ih =>
      rw [discardBlock]
      by_cases hal : (offset - headerOffset) % 256 = 0
      · simp only [shdBlockLen, hal, if_true, Option.some.injEq]
        omega
      · simp only [shdBlockLen, hal, if_false]
        by_cases hin : offset < fileLength
        · rw [if_pos hin, ih (by omega)]
          split <;> omega
        · rw [if_neg hin, ih ho, if_neg hal]
          omega

/-- A loop that has not ended after one block never ends. -/
theorem discardBlock_eq_none {headerOffset fileLength offset : ℕ} (ho : headerOffset ≤ offset)
    (h : discardBlock headerOffset fileLength shdBlockLen offset = none) (n : ℕ) :
    discardBlock headerOffset fileLength n offset = none := by
  by_contra hne
  obtain ⟨p, hp⟩ := Option.ne_none_iff_exists'.mp hne
  obtain ⟨hpad, -, hend⟩ := (discardBlock_eq_some_iff ho).mp hp
  have hlt : p < offset + shdBlockLen := by
    rw [hpad, padLengthForAlignment]
    split <;> simp only [shdBlockLen] at * <;> omega
  rw [(discardBlock_eq_some_iff ho).mpr ⟨hpad, hlt, hend⟩] at h
  cases h

/-! ## Round trip -/

/-- The message that is read back from the record of `msg`. -/
def SmbMsg.reread (msg : SmbMsg) : SmbMsg where
  idx := msg.idx
  hdr := msg.hdr
  hfield := msg.hfield
  dfield := msg.dfields
  offset := msg.offset
  conv := (Convenience.read {} msg.hfield).defaults

/-- Reading where the record of a message starts, with the rest of its last block
in the file. -/
theorem smbGetmsghdr_of_drop {status : SmbStatus} {shd rest : List UInt8} {msg : SmbMsg}
    (hvalid : smbValidHdrOffset status msg.idx.offset.toNat = true)
    (hid : msg.hdr.id = shdHeaderId) (hlength : msg.hdr.length.toNat = smbGetmsghdrlen msg)
    (hex : ∀ h ∈ msg.hfield, h.Exact) (hdf : msg.dfields.length = msg.hdr.totalDfields.toNat)
    (hdrop : shd.drop (msg.idx.offset.toNat - smbHdrSize) = encodeMsg msg ++ rest)
    (hal : (msg.idx.offset.toNat - status.headerOffset.toNat) % shdBlockLen = 0)
    (hrest : padLengthForAlignment (smbGetmsghdrlen msg) shdBlockLen ≤ rest.length) :
    smbGetmsghdr status shd msg =
      some (if msg.hdr.version < 0x110 then .error .errHdrVer else .ok msg.reread) := by
  obtain ⟨h32, hho⟩ : smbHdrSize ≤ msg.idx.offset.toNat ∧
      status.headerOffset.toNat ≤ msg.idx.offset.toNat := by
    simpa [smbValidHdrOffset] using hvalid
  set base := msg.idx.offset.toNat - smbHdrSize with hbase
  have hlen := length_encodeMsg hex hdf
  have hsize := congrArg List.length hdrop
  rw [List.length_drop, List.length_append, hlen] at hsize
  have hgetlen : msghdrSize + msg.hdr.totalDfields.toNat * dfieldSize +
      (msg.hfield.map fun h ↦ hfieldSize + h.length.toNat).sum = smbGetmsghdrlen msg := rfl
  rw [encodeMsg, List.append_assoc, List.append_assoc] at hdrop
  have hfixed := readAt_of_drop_eq hdrop (length_encodeHdr msg.hdr)
  have hdrop' := drop_add_of_drop_eq hdrop (length_encodeHdr msg.hdr)
  have hdslen := length_flatMap_encodeDfield msg.dfields
  rw [hdf] at hdslen
  have hds := readAt_of_drop_eq hdrop' hdslen
  have hdropNext := drop_add_of_drop_eq hdrop' hdslen
  have hdecode : decodeHdr (encodeHdr msg.hdr) = msg.hdr := by
    simpa using decodeHdr_encodeHdr msg.hdr []
  have hdfield := decodeDfield_flatMap msg.dfields
  rw [hdf] at hdfield
  have hhs := @getHfields_flatMap _ _ base msg.hdr.length.toNat _ hex msg.hdr.length.toNat
      (msghdrSize + msg.hdr.totalDfields.toNat * dfieldSize) {}
      (by rw [← Nat.add_assoc]; exact hdropNext) (by rw [hlength, hgetlen]) (by omega)
  have hdiscard : discardBlock status.headerOffset.toNat (smbHdrSize + shd.length) shdBlockLen
      (msg.idx.offset.toNat + smbGetmsghdrlen msg) =
        some (msg.idx.offset.toNat + smbGetmsghdrlen msg +
          padLengthForAlignment (smbGetmsghdrlen msg) shdBlockLen) := by
    have hpad : padLengthForAlignment
        (msg.idx.offset.toNat + smbGetmsghdrlen msg - status.headerOffset.toNat) shdBlockLen =
          padLengthForAlignment (smbGetmsghdrlen msg) shdBlockLen := by
      have hmod : (msg.idx.offset.toNat + smbGetmsghdrlen msg - status.headerOffset.toNat) %
          shdBlockLen = smbGetmsghdrlen msg % shdBlockLen := by
        simp only [shdBlockLen] at hal ⊢
        omega
      rw [padLengthForAlignment, padLengthForAlignment, hmod]
    rw [discardBlock_eq_some_iff (by omega), hpad]
    have hlt : padLengthForAlignment (smbGetmsghdrlen msg) shdBlockLen < shdBlockLen := by
      rw [padLengthForAlignment]
      simp only [shdBlockLen]
      split <;> omega
    have hmin : 70 ≤ smbGetmsghdrlen msg := by
      simp only [smbGetmsghdrlen, msghdrSize]
      omega
    exact ⟨rfl, by omega, Or.inr (by omega)⟩
  rw [smbGetmsghdr]
  simp only [hvalid, Bool.not_true, Bool.false_eq_true, if_false, ← hbase, hfixed, hdecode,
    length_encodeHdr, ne_eq, not_true_eq_false, hid, hds, hdslen, hdfield, hhs, hgetlen,
    hdiscard]
  split <;> rfl

/-- The message has header blocks of its own, and its header fits into them. -/
structure Allocated (status : SmbStatus) (msg : SmbMsg) : Prop where
  valid : smbValidHdrOffset status msg.idx.offset.toNat = true
  aligned : (msg.idx.offset.toNat - status.headerOffset.toNat) % shdBlockLen = 0
  fits : smbHdrblocks (smbGetmsghdrlen msg) ≤ smbHdrblocks msg.hdr.length.toNat

/-- The message as `smb_putmsghdr` writes it. -/
def SmbMsg.normalised (msg : SmbMsg) : SmbMsg :=
  { msg with
    hdr := { msg.hdr with length := UInt16.ofNat (smbGetmsghdrlen msg), id := shdHeaderId } }

/-- What is written for the message: its record, padded to whole blocks. -/
def paddedRecord (msg : SmbMsg) : List UInt8 :=
  encodeMsg msg.normalised ++
    List.replicate (padLengthForAlignment (smbGetmsghdrlen msg) shdBlockLen) 0

theorem smbPutmsghdr_eq {status : SmbStatus} {msg : SmbMsg} (shd : List UInt8)
    (hvalid : smbValidHdrOffset status msg.idx.offset.toNat = true)
    (hlen : smbGetmsghdrlen msg ≤ smbMaxHdrLen)
    (hfits : smbHdrblocks (smbGetmsghdrlen msg) ≤ smbHdrblocks msg.hdr.length.toNat) :
    smbPutmsghdr status shd msg =
      (.success, writeAt 0 shd (msg.idx.offset.toNat - smbHdrSize) (paddedRecord msg),
        msg.normalised) := by
  rw [smbPutmsghdr]
  simp only [hvalid, Bool.not_true, Bool.false_eq_true, if_false, Nat.not_lt.mpr hlen,
    Nat.not_lt.mpr hfits]
  rfl

/-- A header is written as a whole or refused. -/
theorem smbPutmsghdr_cases (status : SmbStatus) (shd : List UInt8) (msg : SmbMsg) :
    (∃ code, code ≠ .success ∧ smbPutmsghdr status shd msg = (code, shd, msg)) ∨
      (smbValidHdrOffset status msg.idx.offset.toNat = true ∧
        smbGetmsghdrlen msg ≤ smbMaxHdrLen ∧
        smbHdrblocks (smbGetmsghdrlen msg) ≤ smbHdrblocks msg.hdr.length.toNat ∧
        smbPutmsghdr status shd msg =
          (.success, writeAt 0 shd (msg.idx.offset.toNat - smbHdrSize) (paddedRecord msg),
            msg.normalised)) := by
  by_cases hvalid : smbValidHdrOffset status msg.idx.offset.toNat = true
  · by_cases hlen : smbGetmsghdrlen msg ≤ smbMaxHdrLen
    · by_cases hfits : smbHdrblocks (smbGetmsghdrlen msg) ≤ smbHdrblocks msg.hdr.length.toNat
      · exact Or.inr ⟨hvalid, hlen, hfits, smbPutmsghdr_eq shd hvalid hlen hfits⟩
      · refine Or.inl ⟨.errHdrLen, by simp, ?_⟩
        simp only [smbPutmsghdr, hvalid, Bool.not_true, Bool.false_eq_true, if_false,
          Nat.not_lt.mpr hlen, Nat.not_le.mp hfits, if_true]
    · refine Or.inl ⟨.errHdrLen, by simp, ?_⟩
      simp only [smbPutmsghdr, hvalid, Bool.not_true, Bool.false_eq_true, if_false,
        Nat.not_le.mp hlen, if_true]
  · refine Or.inl ⟨.errHdrOffset, by simp, ?_⟩
    simp [smbPutmsghdr, hvalid]

theorem msghdrSize_le_length_paddedRecord (msg : SmbMsg) :
    msghdrSize ≤ (paddedRecord msg).length := by
  rw [paddedRecord, encodeMsg]
  simp only [List.length_append, length_encodeHdr]
  omega

theorem length_paddedRecord {msg : SmbMsg} (hex : ∀ h ∈ msg.hfield, h.Exact)
    (hdf : msg.dfields.length = msg.hdr.totalDfields.toNat) :
    (paddedRecord msg).length = shdBlockLen * smbHdrblocks (smbGetmsghdrlen msg) := by
  have hlen : (encodeMsg msg.normalised).length = smbGetmsghdrlen msg :=
    @length_encodeMsg msg.normalised hex hdf
  rw [paddedRecord, List.length_append, hlen, List.length_replicate, smbHdrblocks_eq,
    padLengthForAlignment]
  simp only [shdBlockLen]
  split <;> omega

/-- Writing and reading back succeed and return the message; the file is the same
outside the blocks of the header. -/
def RoundTrip (status : SmbStatus) (shd : List UInt8) (msg : SmbMsg) : Prop :=
  ∃ shd' written back, smbPutmsghdr status shd msg = (.success, shd', written) ∧
    smbGetmsghdr status shd' written = some (.ok back) ∧
    back.hdr =
      { msg.hdr with id := shdHeaderId, length := UInt16.ofNat (smbGetmsghdrlen msg) } ∧
    back.dfield = msg.dfields ∧ back.hfield = msg.hfield ∧
    ∀ i < shd.length, (i < msg.idx.offset.toNat - smbHdrSize ∨
      msg.idx.offset.toNat - smbHdrSize + shdBlockLen * smbHdrblocks (smbGetmsghdrlen msg) ≤ i) →
        shd'[i]? = shd[i]?

/-- Reading back what `smb_putmsghdr` wrote. -/
theorem smbGetmsghdr_writeAt {status : SmbStatus} {msg : SmbMsg} (shd : List UInt8)
    (hs : Storable msg) (hdf : msg.dfields.length = msg.hdr.totalDfields.toNat)
    (hal : Allocated status msg) :
    smbGetmsghdr status (writeAt 0 shd (msg.idx.offset.toNat - smbHdrSize) (paddedRecord msg))
        msg.normalised =
      some (if msg.hdr.version < 0x110 then .error .errHdrVer else .ok msg.normalised.reread) := by
  have hne : paddedRecord msg ≠ [] :=
    List.ne_nil_of_length_pos (Nat.lt_of_lt_of_le (by decide) (msghdrSize_le_length_paddedRecord msg))
  refine @smbGetmsghdr_of_drop _ _
      (List.replicate (padLengthForAlignment (smbGetmsghdrlen msg) shdBlockLen) 0 ++
      shd.drop (msg.idx.offset.toNat - smbHdrSize + (paddedRecord msg).length)) msg.normalised
      hal.valid rfl (toNat_ofNat_uint16 hs.1) hs.2 hdf ?_ hal.aligned ?_
  · refine (drop_writeAt 0 shd (msg.idx.offset.toNat - smbHdrSize) hne).trans ?_
    rw [paddedRecord, List.append_assoc, ← paddedRecord]
  · rw [List.length_append, List.length_replicate]
    exact Nat.le_add_right _ _

/-- The header of a storable message of version 1.10 or later survives writing and
reading. -/
theorem putmsghdr_roundTrip (status : SmbStatus) (shd : List UInt8) (msg : SmbMsg)
    (hs : Storable msg) (hdf : msg.dfields.length = msg.hdr.totalDfields.toNat)
    (hal : Allocated status msg) (hver : 0x110 ≤ msg.hdr.version) : RoundTrip status shd msg := by
  have hput := smbPutmsghdr_eq shd hal.valid hs.1 hal.fits
  have hget := smbGetmsghdr_writeAt shd hs hdf hal
  rw [if_neg (UInt16.not_lt.mpr hver)] at hget
  refine ⟨_, _, _, hput, hget, rfl, rfl, rfl, ?_⟩
  intro i hi hout
  refine getElem?_writeAt_outside _ _ _ _ ?_ hi
  rwa [length_paddedRecord hs.2 hdf]

/-- A message with an empty and a non-empty header field. -/
def twoFieldMsg : SmbMsg where
  idx := { offset := 32 }
  hdr := { version := 0x121, length := 81 }
  hfield := [⟨sender, 0, some []⟩, ⟨subject, 3, some [97, 98, 99]⟩]

theorem storable_twoFieldMsg : Storable twoFieldMsg := by
  refine ⟨by decide, ?_⟩
  intro h hh
  simp only [twoFieldMsg, List.mem_cons, List.not_mem_nil, or_false] at hh
  rcases hh with rfl | rfl
  · exact ⟨[], rfl, rfl⟩
  · exact ⟨[97, 98, 99], rfl, rfl⟩

theorem allocated_twoFieldMsg : Allocated {} twoFieldMsg :=
  ⟨by decide, by decide, by decide⟩

theorem putmsghdr_roundTrip_twoFieldMsg : RoundTrip {} [] twoFieldMsg :=
  putmsghdr_roundTrip {} [] twoFieldMsg storable_twoFieldMsg rfl allocated_twoFieldMsg (by decide)

/-- A header of version 0 is written but refused by the reader. -/
theorem not_roundTrip_version_zero :
    ¬ ∀ (status : SmbStatus) (shd : List UInt8) (msg : SmbMsg), Storable msg →
      msg.dfields.length = msg.hdr.totalDfields.toNat → Allocated status msg →
        RoundTrip status shd msg := by
  intro hall
  set msg : SmbMsg := { idx := { offset := 32 }, hdr := { length := 70 } } with hmsg
  have hs : Storable msg := ⟨by decide, by simp [hmsg]⟩
  have hal : Allocated {} msg := ⟨by decide, by decide, by decide⟩
  obtain ⟨shd', written, back, hput, hget, -⟩ := hall {} [] msg hs rfl hal
  rw [smbPutmsghdr_eq [] hal.valid hs.1 hal.fits] at hput
  simp only [Prod.mk.injEq, true_and] at hput
  obtain ⟨rfl, rfl⟩ := hput
  rw [smbGetmsghdr_writeAt [] hs rfl hal, if_pos (by decide)] at hget
  cases hget

end Synchronet.Smblib
