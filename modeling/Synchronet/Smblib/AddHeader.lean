import Synchronet.Smblib.HeaderFile
import Synchronet.Smblib.Hash

/-!
# Adding and updating message headers (smblib.c)

`smb_addmsghdr` numbers a message, allocates header blocks for it and writes its
header and index records; `smb_updatemsg` rewrites both records of a message that
the index holds.  Each gets one lemma on everything a call can do.
-/

namespace Synchronet.Smblib

open RecordFile

def smbPutmsg (env : Env) (smb : Smb) (msg : SmbMsg) : Code × Smb × SmbMsg :=
  let msg := smbInitIdx env smb.status.attr msg
  let r := smbPutmsghdr smb.status smb.shd msg
  if r.1 ≠ .success then (r.1, { smb with shd := r.2.1 }, r.2.2)
  else
    let i := smbPutmsgidx smb.sid r.2.2
    (i.1, { smb with shd := r.2.1, sid := i.2 }, r.2.2)

def smbUpdatemsg (env : Env) (smb : Smb) (msg : SmbMsg) : Code × Smb × SmbMsg :=
  match smbGetmsgidx smb.sid msg with
  | .error code => (code, smb, msg)
  | .ok msg => smbPutmsg env smb msg

/-- The header allocation of a storage mode: the position behind the header offset,
and the table afterwards. -/
def hdrAlloc (storage : Storage) (smb : Smb) (length : ℕ) : ℕ × List UInt8 :=
  match storage with
  | .hyperalloc => (smbHallochdr smb.status smb.shd, smb.sha)
  | .fastalloc => smbFallochdr smb.sha length
  | .selfpack => smbAllochdr smb.sha length

/-- What `smb_addmsghdr` does up to the call of `smb_putmsg`: the message gets its
number, thread, hashes, version, length and place. -/
def prepareMsghdr (env : Env) (smb : Smb) (msg : SmbMsg) (storage : Storage) : Smb × SmbMsg :=
  let number := smb.status.lastMsg + 1
  let hdrlen := UInt16.ofNat (smbGetmsghdrlen msg)
  let msg := { msg with hdr := { msg.hdr with
    number := number
    threadId := if msg.hdr.threadId = 0 then number else msg.hdr.threadId } }
  let hashed :=
    if msg.hashed then (smb.hash, msg) else smbHashmsg env smb.status.attr smb.hash msg
  let msg := hashed.2
  let alloc := hdrAlloc storage smb hdrlen.toNat
  ({ smb with hash := hashed.1, sha := alloc.2 },
    { msg with
      hdr := { msg.hdr with
        version := if msg.hdr.version = 0 then smbVersion else msg.hdr.version
        length := hdrlen }
      idx := { msg.idx with
        offset := UInt32.ofNat (smb.status.headerOffset.toNat + alloc.1) }
      offset := toInt32 smb.status.totalMsgs.toNat })

def smbAddmsghdr (env : Env) (smb : Smb) (msg : SmbMsg) (storage : Storage) :
    Code × Smb × SmbMsg :=
  if smbMaxHdrLen < smbGetmsghdrlen msg then (.errHdrLen, smb, msg)
  else if smb.sid.length ≠ smb.status.totalMsgs.toNat then (.errFileLen, smb, msg)
  else
    let p := prepareMsghdr env smb msg storage
    let r := smbPutmsg env p.1 p.2
    if r.1 = .success then
      (r.1, { r.2.1 with status := { r.2.1.status with
        lastMsg := r.2.1.status.lastMsg + 1
        totalMsgs := r.2.1.status.totalMsgs + 1 } }, r.2.2)
    else r

/-! ## What a write can do -/

@[simp] theorem getmsghdrlen_initIdx (env : Env) (attr : UInt16) (msg : SmbMsg) :
    smbGetmsghdrlen (smbInitIdx env attr msg) = smbGetmsghdrlen msg := rfl

/-- Writing the index record appends it or replaces one. -/
theorem smbPutmsgidx_eq {sid : List IdxRec} {msg : SmbMsg} {n : ℕ} (hoff : msg.offset = n)
    (hn : n ≤ sid.length) :
    smbPutmsgidx sid msg = (.success, writeAt {} sid n [msg.idx]) := by
  rw [smbPutmsgidx, hoff, if_neg (by omega), if_neg (by omega), Int.toNat_natCast]

theorem smbPutmsgidx_fst {sid : List IdxRec} {msg : SmbMsg}
    (h : (smbPutmsgidx sid msg).1 = .success) : ∃ n : ℕ, msg.offset = n ∧ n ≤ sid.length := by
  rw [smbPutmsgidx] at h
  split at h
  · cases h
  · split at h
    · cases h
    · exact ⟨msg.offset.toNat, by omega, by omega⟩

theorem smbPutmsgidx_snd_of_ne {sid : List IdxRec} {msg : SmbMsg}
    (h : (smbPutmsgidx sid msg).1 ≠ .success) : (smbPutmsgidx sid msg).2 = sid := by
  rw [smbPutmsgidx] at h ⊢
  split
  · rfl
  · split
    · rfl
    · simp_all

/-- `smb_putmsg` writes both records, or none but perhaps the header. -/
theorem smbPutmsg_cases (env : Env) (smb : Smb) (msg : SmbMsg) :
    (∃ shd, smb.shd.length ≤ shd.length ∧ (smbPutmsg env smb msg).1 ≠ .success ∧
      (smbPutmsg env smb msg).2.1 = { smb with shd := shd }) ∨
    (∃ n : ℕ, msg.offset = n ∧ n ≤ smb.sid.length ∧
      smbValidHdrOffset smb.status msg.idx.offset.toNat = true ∧
      smbGetmsghdrlen msg ≤ smbMaxHdrLen ∧
      smbHdrblocks (smbGetmsghdrlen msg) ≤ smbHdrblocks msg.hdr.length.toNat ∧
      smbPutmsg env smb msg =
        (.success,
          { smb with
            shd := writeAt 0 smb.shd (msg.idx.offset.toNat - smbHdrSize)
              (paddedRecord (smbInitIdx env smb.status.attr msg))
            sid := writeAt {} smb.sid n [(smbInitIdx env smb.status.attr msg).idx] },
          (smbInitIdx env smb.status.attr msg).normalised)) := by
  rcases smbPutmsghdr_cases smb.status smb.shd (smbInitIdx env smb.status.attr msg) with
    ⟨code, hcode, hput⟩ | ⟨hvalid, hlen, hfits, hput⟩
  · refine Or.inl ⟨smb.shd, le_refl _, ?_, ?_⟩
    · simp only [smbPutmsg, hput, ne_eq, hcode, not_false_eq_true, if_true]
    · simp only [smbPutmsg, hput, ne_eq, hcode, not_false_eq_true, if_true]
  · set msg' := (smbInitIdx env smb.status.attr msg).normalised with hmsg'
    by_cases hidx : (smbPutmsgidx smb.sid msg').1 = .success
    · obtain ⟨n, hoff, hn⟩ := smbPutmsgidx_fst hidx
      refine Or.inr ⟨n, hoff, hn, hvalid, hlen, hfits, ?_⟩
      have hwrite : smbPutmsgidx smb.sid msg' = _ := smbPutmsgidx_eq hoff hn
      simp only [smbPutmsg, hput, ne_eq, not_true_eq_false, if_false, hwrite]
      rfl
    · refine Or.inl ⟨writeAt 0 smb.shd (msg.idx.offset.toNat - smbHdrSize)
        (paddedRecord (smbInitIdx env smb.status.attr msg)), length_le_writeAt _ _ _ _, ?_, ?_⟩
      · simpa only [smbPutmsg, hput, ne_eq, not_true_eq_false, if_false] using hidx
      · simp only [smbPutmsg, hput, ne_eq, not_true_eq_false, if_false,
          smbPutmsgidx_snd_of_ne hidx]
        rfl

/-- An update leaves the index as it is, or rewrites the record of the message in
place. -/
theorem smbUpdatemsg_cases (env : Env) (smb : Smb) {msg : SmbMsg} (hnum : msg.hdr.number ≠ 0)
    (hsmall : smb.sid.length ≤ 2 ^ 31) :
    (∃ shd, smb.shd.length ≤ shd.length ∧ (smbUpdatemsg env smb msg).1 ≠ .success ∧
      (smbUpdatemsg env smb msg).2.1 = { smb with shd := shd }) ∨
    (∃ i old msg', smb.sid[i]? = some old ∧ old.number = msg.hdr.number ∧
      msg' = smbInitIdx env smb.status.attr { msg with idx := old, offset := toInt32 i } ∧
      smbValidHdrOffset smb.status old.offset.toNat = true ∧
      smbGetmsghdrlen msg ≤ smbMaxHdrLen ∧
      smbHdrblocks (smbGetmsghdrlen msg) ≤ smbHdrblocks msg.hdr.length.toNat ∧
      smbUpdatemsg env smb msg =
        (.success,
          { smb with
            shd := writeAt 0 smb.shd (old.offset.toNat - smbHdrSize) (paddedRecord msg')
            sid := smb.sid.set i msg'.idx },
          msg'.normalised)) := by
  cases hget : smbGetmsgidx smb.sid msg with
  | error code =>
      refine Or.inl ⟨smb.shd, le_refl _, ?_, ?_⟩
      · rw [smbUpdatemsg, hget]
        exact smbGetmsgidx_error_ne hget
      · rw [smbUpdatemsg, hget]
  | ok found =>
      obtain ⟨i, old, hi, hold, rfl⟩ := smbGetmsgidx_ok hnum hget
      obtain ⟨hlt, -⟩ := List.getElem?_eq_some_iff.mp hi
      have hoff : toInt32 i = (i : ℤ) := toInt32_of_lt (by omega)
      rw [smbUpdatemsg, hget]
      rcases smbPutmsg_cases env smb { msg with idx := old, offset := toInt32 i } with
        hfail | ⟨n, hn, -, hvalid, hlen, hfits, hput⟩
      · exact Or.inl hfail
      · have hni : n = i := by
          have : (n : ℤ) = i := hn.symm.trans hoff
          exact_mod_cast this
        subst hni
        refine Or.inr ⟨n, old, _, hi, hold, rfl, hvalid, hlen, hfits, ?_⟩
        dsimp only
        rw [hput, writeAt_singleton {} _ hlt]

/-! ## What an addition can do -/

section Prepare

variable (env : Env) (smb : Smb) (msg : SmbMsg) (storage : Storage)

@[simp] theorem getmsghdrlen_prepareMsghdr :
    smbGetmsghdrlen (prepareMsghdr env smb msg storage).2 = smbGetmsghdrlen msg := by
  simp only [prepareMsghdr]
  cases msg.hashed with
  | true => rfl
  | false =>
      simp only [Bool.false_eq_true, if_false, smbHashmsg_snd]
      rfl

@[simp] theorem number_prepareMsghdr :
    (prepareMsghdr env smb msg storage).2.hdr.number = smb.status.lastMsg + 1 := by
  simp only [prepareMsghdr]
  cases msg.hashed with
  | true => rfl
  | false => simp only [Bool.false_eq_true, if_false, smbHashmsg_snd]

@[simp] theorem length_prepareMsghdr :
    (prepareMsghdr env smb msg storage).2.hdr.length = UInt16.ofNat (smbGetmsghdrlen msg) := rfl

@[simp] theorem offset_prepareMsghdr :
    (prepareMsghdr env smb msg storage).2.offset = toInt32 smb.status.totalMsgs.toNat := rfl

variable {msg} (hlen : smbGetmsghdrlen msg ≤ smbMaxHdrLen)

include hlen

theorem idx_offset_prepareMsghdr :
    (prepareMsghdr env smb msg storage).2.idx.offset =
      UInt32.ofNat (smb.status.headerOffset.toNat +
        (hdrAlloc storage smb (smbGetmsghdrlen msg)).1) := by
  simp only [prepareMsghdr, toNat_ofNat_uint16 hlen]

theorem prepareMsghdr_fst :
    ∃ hash, (prepareMsghdr env smb msg storage).1 =
      { smb with hash := hash, sha := (hdrAlloc storage smb (smbGetmsghdrlen msg)).2 } := by
  simp only [prepareMsghdr, toNat_ofNat_uint16 hlen]
  exact ⟨_, rfl⟩

end Prepare

/-- An addition is refused before anything is allocated, fails after that without
an index record, or appends one. -/
theorem smbAddmsghdr_cases (env : Env) (smb : Smb) (msg : SmbMsg) (storage : Storage) :
    ((smbAddmsghdr env smb msg storage).1 ≠ .success ∧
      (smbAddmsghdr env smb msg storage).2.1 = smb ∧
      (smbMaxHdrLen < smbGetmsghdrlen msg ∨ smb.sid.length ≠ smb.status.totalMsgs.toNat)) ∨
    (smbGetmsghdrlen msg ≤ smbMaxHdrLen ∧ smb.sid.length = smb.status.totalMsgs.toNat ∧
      (smbAddmsghdr env smb msg storage).1 ≠ .success ∧
      ∃ shd hash, smb.shd.length ≤ shd.length ∧
        (smbAddmsghdr env smb msg storage).2.1 =
          { smb with
            shd := shd
            hash := hash
            sha := (hdrAlloc storage smb (smbGetmsghdrlen msg)).2 }) ∨
    (smbGetmsghdrlen msg ≤ smbMaxHdrLen ∧ smb.sid.length = smb.status.totalMsgs.toNat ∧
      smb.sid.length < 2 ^ 31 ∧
      ∃ hash msg', msg'.idx.number = smb.status.lastMsg + 1 ∧
        msg'.idx.offset = UInt32.ofNat (smb.status.headerOffset.toNat +
          (hdrAlloc storage smb (smbGetmsghdrlen msg)).1) ∧
        smbValidHdrOffset smb.status msg'.idx.offset.toNat = true ∧
        msg'.hdr.number = smb.status.lastMsg + 1 ∧
        smbGetmsghdrlen msg' = smbGetmsghdrlen msg ∧
        smbAddmsghdr env smb msg storage =
          (.success,
            { smb with
              status := { smb.status with
                lastMsg := smb.status.lastMsg + 1
                totalMsgs := smb.status.totalMsgs + 1 }
              shd := writeAt 0 smb.shd (msg'.idx.offset.toNat - smbHdrSize) (paddedRecord msg')
              sid := smb.sid ++ [msg'.idx]
              hash := hash
              sha := (hdrAlloc storage smb (smbGetmsghdrlen msg)).2 },
            msg'.normalised)) := by
  by_cases hlong : smbMaxHdrLen < smbGetmsghdrlen msg
  · exact Or.inl (by simp [smbAddmsghdr, hlong])
  by_cases hcount : smb.sid.length ≠ smb.status.totalMsgs.toNat
  · exact Or.inl (by simp [smbAddmsghdr, hlong, hcount])
  have hlen := Nat.not_lt.mp hlong
  push Not at hcount
  obtain ⟨hash, hfst⟩ := prepareMsghdr_fst env smb storage hlen
  rcases smbPutmsg_cases env (prepareMsghdr env smb msg storage).1
      (prepareMsghdr env smb msg storage).2 with
    ⟨shd, hshd, hcode, hput⟩ | ⟨n, hoff, hn, hvalid, -, -, hput⟩
  · rw [smbAddmsghdr, if_neg hlong, if_neg (not_not.mpr hcount)]
    simp only [hcode, if_false]
    refine Or.inr (Or.inl ⟨hlen, hcount, hcode, shd, hash, ?_, ?_⟩)
    · simpa [hfst] using hshd
    · rw [hput, hfst]
  · rw [hfst] at hn hvalid
    rw [offset_prepareMsghdr] at hoff
    have hsmall : smb.status.totalMsgs.toNat < 2 ^ 31 := by
      by_contra hbig
      have := toInt32_neg (Nat.not_lt.mp hbig) (UInt32.toNat_lt _)
      omega
    have hn' : n = smb.sid.length := by
      rw [toInt32_of_lt hsmall] at hoff
      omega
    refine Or.inr (Or.inr ⟨hlen, hcount, by omega, hash,
      smbInitIdx env smb.status.attr (prepareMsghdr env smb msg storage).2,
      number_prepareMsghdr env smb msg storage, idx_offset_prepareMsghdr env smb storage hlen,
      hvalid, number_prepareMsghdr env smb msg storage,
      getmsghdrlen_prepareMsghdr env smb msg storage, ?_⟩)
    rw [smbAddmsghdr, if_neg hlong, if_neg (not_not.mpr hcount)]
    simp only [hput, if_true]
    rw [hfst, hn', writeAt_length]
    rfl

/-- Headers start at block boundaries. -/
theorem dvd_hdrAlloc (storage : Storage) {smb : Smb} (length : ℕ)
    (hoff : smb.status.headerOffset = 32) : shdBlockLen ∣ (hdrAlloc storage smb length).1 := by
  cases storage with
  | hyperalloc =>
      simp only [hdrAlloc, smbHallochdr, hoff, smbHdrSize, padLengthForAlignment, shdBlockLen]
      have h32 : (32 : UInt32).toNat = 32 := rfl
      rw [h32, if_neg (by omega)]
      split <;> omega
  | fastalloc => exact Dvd.intro _ (by rw [hdrAlloc, smbFallochdr_eq])
  | selfpack => exact Dvd.intro _ (by rw [hdrAlloc, smbAllochdr_eq])

/-- An addition succeeds when the header is not too long and the index is sound. -/
theorem smbAddmsghdr_fst {env : Env} {smb : Smb} {msg : SmbMsg} {storage : Storage}
    (hlen : smbGetmsghdrlen msg ≤ smbMaxHdrLen)
    (hcount : smb.sid.length = smb.status.totalMsgs.toNat) (hsmall : smb.sid.length < 2 ^ 31)
    (hoff : smb.status.headerOffset = 32) :
    (smbAddmsghdr env smb msg storage).1 = .success := by
  obtain ⟨hash, hfst⟩ := prepareMsghdr_fst env smb storage hlen
  have hplace := idx_offset_prepareMsghdr env smb storage hlen
  have hvalid : smbValidHdrOffset smb.status
      (prepareMsghdr env smb msg storage).2.idx.offset.toNat = true := by
    obtain ⟨k, hk⟩ := dvd_hdrAlloc storage (smbGetmsghdrlen msg) hoff
    have h32 : (32 : UInt32).toNat = 32 := rfl
    rw [hplace, hoff, h32, hk, UInt32.toNat_ofNat', smbValidHdrOffset, hoff, h32]
    simp only [smbHdrSize, shdBlockLen, decide_eq_true_eq]
    omega
  have hput := @smbPutmsghdr_eq _ (smbInitIdx env smb.status.attr
    (prepareMsghdr env smb msg storage).2) smb.shd hvalid
      (by rw [getmsghdrlen_initIdx, getmsghdrlen_prepareMsghdr]; exact hlen) (by
      rw [getmsghdrlen_initIdx, getmsghdrlen_prepareMsghdr]
      change _ ≤ smbHdrblocks (prepareMsghdr env smb msg storage).2.hdr.length.toNat
      rw [length_prepareMsghdr, toNat_ofNat_uint16 hlen])
  have hidx := @smbPutmsgidx_eq smb.sid ((smbInitIdx env smb.status.attr
    (prepareMsghdr env smb msg storage).2).normalised) smb.status.totalMsgs.toNat
      (toInt32_of_lt (by omega)) (by omega)
  have hputmsg : (smbPutmsg env (prepareMsghdr env smb msg storage).1
      (prepareMsghdr env smb msg storage).2).1 = .success := by
    simp only [smbPutmsg, hfst, hput, ne_eq, not_true_eq_false, if_false, hidx]
  simp only [smbAddmsghdr, Nat.not_lt.mpr hlen, if_false, hcount, ne_eq, not_true_eq_false,
    hputmsg, if_true]

end Synchronet.Smblib
