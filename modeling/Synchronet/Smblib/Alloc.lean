import Synchronet.Lib.FirstFit
import Synchronet.Smblib.Defs

/-!
# Block allocation (smballoc.c)

The `.sda` table counts the references to each 256-byte data block, the `.sha`
table marks the used 256-byte header blocks.  The search loops of the code are
related to `FirstFit`, and each operation gets one lemma on the count of an
arbitrary block.
-/

namespace Synchronet.Smblib

open RecordFile FirstFit

/-- `PAD_LENGTH_FOR_ALIGNMENT`. -/
def padLengthForAlignment (len blk : ℕ) : ℕ :=
  if len % blk = 0 then 0 else blk - len % blk

/-! ## Data blocks -/

/-- The search loop of `smb_allocdat`: `j` counts consecutive unused blocks and
`offset` the bytes passed. -/
def smbAllocdatScan (blocks : ℕ) : List UInt16 → ℕ → ℕ → ℕ
  | [], _, offset => offset
  | i :: rest, j, offset =>
      if longMax < offset then offset
      else
        let j' := if i = 0 then j + 1 else 0
        if j' = blocks then offset + sdtBlockLen - blocks * sdtBlockLen
        else smbAllocdatScan blocks rest j' (offset + sdtBlockLen)

def smbAllocdat (sda : List UInt16) (length : ℕ) (refs : UInt16) :
    Except Code ℕ × List UInt16 :=
  let blocks := smbDatblocks length
  let offset := smbAllocdatScan blocks sda 0 0
  if longMax < offset then (.error .errDatOffset, sda)
  else (.ok offset, writeAt 0 sda (offset / sdtBlockLen) (List.replicate blocks refs))

def smbFallocdat (sda : List UInt16) (length : ℕ) (refs : UInt16) :
    Except Code ℕ × List UInt16 :=
  let blocks := smbDatblocks length
  let offset := sda.length * sdtBlockLen
  if longMax < offset then (.error .errDatOffset, sda)
  else (.ok offset, sda ++ List.replicate blocks refs)

/-- One count of `smb_freemsgdat`; `refs = 0` is `SMB_ALL_REFS`. -/
def freeRefs (refs i : UInt16) : UInt16 := if refs = 0 ∨ i < refs then 0 else i - refs

def smbFreemsgdat (attr : UInt16) (sda : List UInt16) (offset length : ℕ) (refs : UInt16) :
    Code × List UInt16 :=
  if attr &&& smbHyperalloc ≠ 0 then (.success, sda)
  else
    let run := updateRun (freeRefs refs) (smbDatblocks length) (offset / sdtBlockLen) sda
    (if run.1 then .success else .errRead, run.2)

def smbIncdat (sda : List UInt16) (offset length : ℕ) (refs : UInt16) : Code × List UInt16 :=
  let run := updateRun (· + refs) (smbDatblocks length) (offset / sdtBlockLen) sda
  (if run.1 then .success else .errRead, run.2)

/-- A table operation on each data field in turn, up to the first that fails. -/
def dfieldLoop (op : List UInt16 → DField → Code × List UInt16) :
    List DField → List UInt16 → Code × List UInt16
  | [], sda => (.success, sda)
  | d :: ds, sda =>
      match op sda d with
      | (.success, sda') => dfieldLoop op ds sda'
      | r => r

/-- The 32-bit sum `msg->hdr.offset + msg->dfield[x].offset`. -/
def dfieldPos (msg : SmbMsg) (d : DField) : ℕ := (msg.hdr.offset + d.offset).toNat

def smbIncmsgDfields (attr : UInt16) (sda : List UInt16) (msg : SmbMsg) (refs : UInt16) :
    Code × List UInt16 :=
  if attr &&& smbHyperalloc ≠ 0 then (.success, sda)
  else
    dfieldLoop (fun sda d ↦ smbIncdat sda (dfieldPos msg d) d.length.toNat refs) msg.dfields sda

def smbFreemsgDfields (attr : UInt16) (sda : List UInt16) (msg : SmbMsg) (refs : UInt16) :
    Code × List UInt16 :=
  dfieldLoop (fun sda d ↦ smbFreemsgdat attr sda (dfieldPos msg d) d.length.toNat refs)
    msg.dfields sda

/-- `smb_hallocdat`. -/
def smbHallocdat (sdt : List UInt8) : ℕ :=
  sdt.length + padLengthForAlignment sdt.length sdtBlockLen

/-! ## Header blocks -/

/-- The search loop of `smb_allochdr`. -/
def smbAllochdrScan (blocks : ℕ) : List UInt8 → ℕ → ℕ → ℕ
  | [], _, offset => offset
  | c :: rest, i, offset =>
      let i' := if c = 0 then i + 1 else 0
      if i' = blocks then offset + shdBlockLen - blocks * shdBlockLen
      else smbAllochdrScan blocks rest i' (offset + shdBlockLen)

def smbAllochdr (sha : List UInt8) (length : ℕ) : ℕ × List UInt8 :=
  let blocks := smbHdrblocks length
  let offset := smbAllochdrScan blocks sha 0 0
  (offset, writeAt 0 sha (offset / shdBlockLen) (List.replicate blocks 1))

def smbFallochdr (sha : List UInt8) (length : ℕ) : ℕ × List UInt8 :=
  (sha.length * shdBlockLen, sha ++ List.replicate (smbHdrblocks length) 1)

def smbFreemsghdr (sha : List UInt8) (offset length : ℕ) : Code × List UInt8 :=
  (.success, writeAt 0 sha (offset / shdBlockLen) (List.replicate (smbHdrblocks length) 0))

def smbHallochdr (status : SmbStatus) (shd : List UInt8) : ℕ :=
  let offset := smbHdrSize + shd.length
  if offset < status.headerOffset.toNat then status.headerOffset.toNat
  else
    let offset := offset - status.headerOffset.toNat
    offset + padLengthForAlignment offset shdBlockLen

def smbFreemsg (smb : Smb) (msg : SmbMsg) : Code × Smb :=
  if smb.status.attr &&& smbHyperalloc ≠ 0 then (.success, smb)
  else if !smbValidHdrOffset smb.status msg.idx.offset.toNat then (.errHdrOffset, smb)
  else
    match smbFreemsgDfields smb.status.attr smb.sda msg 1 with
    | (.success, sda) =>
        let r := smbFreemsghdr smb.sha (msg.idx.offset.toNat - smb.status.headerOffset.toNat)
          msg.hdr.length.toNat
        (r.1, { smb with sda := sda, sha := r.2 })
    | (code, sda) => (code, { smb with sda := sda })

/-! ## Where the searches end -/

theorem smbAllocdatScan_eq (blocks : ℕ) (l : List UInt16) (j pos : ℕ)
    (h : smbAllocdatScan blocks l j (sdtBlockLen * pos) ≤ longMax) :
    smbAllocdatScan blocks l j (sdtBlockLen * pos) =
      sdtBlockLen * scan (fun i ↦ decide (i = 0)) blocks l j pos := by
  induction l generalizing j pos with
  | nil => rfl
  | cons i rest ih =>
      rw [smbAllocdatScan] at h ⊢
      rw [scan]
      by_cases hlong : longMax < sdtBlockLen * pos
      · rw [if_pos hlong] at h
        omega
      · rw [if_neg hlong] at h ⊢
        simp only [decide_eq_true_eq] at h ⊢
        generalize (if i = 0 then j + 1 else 0) = j' at h ⊢
        split
        · simp only [sdtBlockLen]
          omega
        · rename_i hne
          rw [if_neg hne] at h
          exact ih j' (pos + 1) h

theorem smbAllochdrScan_eq (blocks : ℕ) (l : List UInt8) (i pos : ℕ) :
    smbAllochdrScan blocks l i (shdBlockLen * pos) =
      shdBlockLen * scan (fun c ↦ decide (c = 0)) blocks l i pos := by
  induction l generalizing i pos with
  | nil => rfl
  | cons c rest ih =>
      rw [smbAllochdrScan, scan]
      simp only [decide_eq_true_eq]
      generalize (if c = 0 then i + 1 else 0) = i'
      split
      · simp only [shdBlockLen]
        omega
      · exact ih i' (pos + 1)

/-- The first block of the extent that an allocation of `blocks` blocks gets. -/
def dataStart (storage : Storage) (sda : List UInt16) (blocks : ℕ) : ℕ :=
  if storage = .fastalloc then sda.length else firstFit (fun i ↦ decide (i = 0)) blocks sda

/-- The first block of the extent that a header of `blocks` blocks gets. -/
def hdrStart (storage : Storage) (sha : List UInt8) (blocks : ℕ) : ℕ :=
  if storage = .fastalloc then sha.length else firstFit (fun c ↦ decide (c = 0)) blocks sha

theorem smbAllocdat_ok {sda sda' : List UInt16} {length offset : ℕ} {refs : UInt16}
    (h : smbAllocdat sda length refs = (.ok offset, sda')) :
    offset = sdtBlockLen * dataStart .selfpack sda (smbDatblocks length) ∧
      sda' = writeAt 0 sda (dataStart .selfpack sda (smbDatblocks length))
        (List.replicate (smbDatblocks length) refs) := by
  rw [smbAllocdat] at h
  by_cases hlong : longMax < smbAllocdatScan (smbDatblocks length) sda 0 0
  · simp [hlong] at h
  · have hscan := smbAllocdatScan_eq (smbDatblocks length) sda 0 0 (by simpa using hlong)
    rw [Nat.mul_zero] at hscan
    simp only [hscan] at h
    rw [if_neg (by rw [← hscan]; exact hlong)] at h
    simp only [Prod.mk.injEq, Except.ok.injEq] at h
    obtain ⟨hoff, hsda⟩ := h
    rw [Nat.mul_div_cancel_left _ (by decide : 0 < sdtBlockLen)] at hsda
    exact ⟨hoff.symm, hsda.symm⟩

theorem smbFallocdat_ok {sda sda' : List UInt16} {length offset : ℕ} {refs : UInt16}
    (h : smbFallocdat sda length refs = (.ok offset, sda')) :
    offset = sdtBlockLen * dataStart .fastalloc sda (smbDatblocks length) ∧
      sda' = writeAt 0 sda (dataStart .fastalloc sda (smbDatblocks length))
        (List.replicate (smbDatblocks length) refs) := by
  rw [smbFallocdat] at h
  split at h
  · simp at h
  · simp only [Prod.mk.injEq, Except.ok.injEq] at h
    simp only [dataStart, if_true, writeAt_length]
    exact ⟨by rw [← h.1, Nat.mul_comm], h.2.symm⟩

theorem smbAllocdat_error {sda sda' : List UInt16} {length : ℕ} {refs : UInt16} {code : Code}
    (h : smbAllocdat sda length refs = (.error code, sda')) :
    code = .errDatOffset ∧ sda' = sda := by
  rw [smbAllocdat] at h
  split at h <;> simp_all

theorem smbFallocdat_error {sda sda' : List UInt16} {length : ℕ} {refs : UInt16} {code : Code}
    (h : smbFallocdat sda length refs = (.error code, sda')) :
    code = .errDatOffset ∧ sda' = sda := by
  rw [smbFallocdat] at h
  split at h <;> simp_all

theorem smbAllochdr_eq (sha : List UInt8) (length : ℕ) :
    smbAllochdr sha length =
      (shdBlockLen * hdrStart .selfpack sha (smbHdrblocks length),
        writeAt 0 sha (hdrStart .selfpack sha (smbHdrblocks length))
          (List.replicate (smbHdrblocks length) 1)) := by
  have hscan := smbAllochdrScan_eq (smbHdrblocks length) sha 0 0
  rw [Nat.mul_zero] at hscan
  rw [smbAllochdr, hscan, Nat.mul_div_cancel_left _ (by decide : 0 < shdBlockLen)]
  rfl

theorem smbFallochdr_eq (sha : List UInt8) (length : ℕ) :
    smbFallochdr sha length =
      (shdBlockLen * hdrStart .fastalloc sha (smbHdrblocks length),
        writeAt 0 sha (hdrStart .fastalloc sha (smbHdrblocks length))
          (List.replicate (smbHdrblocks length) 1)) := by
  simp only [smbFallochdr, hdrStart, if_true, writeAt_length, Nat.mul_comm]

theorem dataStart_le_length (storage : Storage) (sda : List UInt16) {blocks : ℕ}
    (hb : 0 < blocks) : dataStart storage sda blocks ≤ sda.length := by
  rw [dataStart]
  split
  · exact le_refl _
  · exact firstFit_le_length _ hb _

theorem hdrStart_le_length (storage : Storage) (sha : List UInt8) {blocks : ℕ}
    (hb : 0 < blocks) : hdrStart storage sha blocks ≤ sha.length := by
  rw [hdrStart]
  split
  · exact le_refl _
  · exact firstFit_le_length _ hb _

/-! ## Counts of single blocks -/

/-- The reference count of a data block; a block behind the table is free. -/
def datCount (sda : List UInt16) (i : ℕ) : UInt16 := sda.getD i 0

/-- The mark of a header block. -/
def hdrMark (sha : List UInt8) (i : ℕ) : UInt8 := sha.getD i 0

theorem getD_writeAt_replicate {α : Type*} (fill a : α) (f : List α) {pos n : ℕ}
    (hpos : pos ≤ f.length) (i : ℕ) :
    (writeAt fill f pos (List.replicate n a)).getD i fill =
      if pos ≤ i ∧ i < pos + n then a else f.getD i fill := by
  simp only [List.getD_eq_getElem?_getD]
  split
  · rename_i hi
    have hin : i - pos < (List.replicate n a).length := by
      rw [List.length_replicate]
      omega
    have hget := getElem?_writeAt_inside fill f pos (List.replicate n a) hin
    rw [show pos + (i - pos) = i by omega] at hget
    rw [hget, List.getElem?_replicate, if_pos (by omega), Option.getD_some]
  · rename_i hi
    by_cases hlow : i < pos
    · rw [getElem?_writeAt_before _ _ _ _ hlow (by omega)]
    · rw [getElem?_writeAt_after _ _ _ _ (by rw [List.length_replicate]; omega)]

theorem datCount_alloc (storage : Storage) (sda : List UInt16) {blocks : ℕ} (hb : 0 < blocks)
    (refs : UInt16) (i : ℕ) :
    datCount (writeAt 0 sda (dataStart storage sda blocks) (List.replicate blocks refs)) i =
      if dataStart storage sda blocks ≤ i ∧ i < dataStart storage sda blocks + blocks then refs
      else datCount sda i :=
  getD_writeAt_replicate 0 refs sda (dataStart_le_length storage sda hb) i

/-- Only free blocks are handed out. -/
theorem datCount_dataStart (storage : Storage) (sda : List UInt16) {blocks : ℕ} (hb : 0 < blocks)
    {i : ℕ} (hlo : dataStart storage sda blocks ≤ i)
    (hhi : i < dataStart storage sda blocks + blocks) : datCount sda i = 0 := by
  rw [datCount, List.getD_eq_getElem?_getD]
  cases hi : sda[i]? with
  | none => rfl
  | some a =>
      obtain ⟨hlt, -⟩ := List.getElem?_eq_some_iff.mp hi
      rw [dataStart] at hlo hhi
      split at hlo
      · omega
      · rename_i hs
        rw [if_neg hs] at hhi
        simpa using firstFit_covered _ hb sda hlo hhi hi

theorem hdrMark_alloc (storage : Storage) (sha : List UInt8) {blocks : ℕ} (hb : 0 < blocks)
    (i : ℕ) :
    hdrMark (writeAt 0 sha (hdrStart storage sha blocks) (List.replicate blocks 1)) i =
      if hdrStart storage sha blocks ≤ i ∧ i < hdrStart storage sha blocks + blocks then 1
      else hdrMark sha i :=
  getD_writeAt_replicate 0 1 sha (hdrStart_le_length storage sha hb) i

/-- Only unmarked header blocks are handed out. -/
theorem hdrMark_hdrStart (storage : Storage) (sha : List UInt8) {blocks : ℕ} (hb : 0 < blocks)
    {i : ℕ} (hlo : hdrStart storage sha blocks ≤ i)
    (hhi : i < hdrStart storage sha blocks + blocks) : hdrMark sha i = 0 := by
  rw [hdrMark, List.getD_eq_getElem?_getD]
  cases hi : sha[i]? with
  | none => rfl
  | some a =>
      obtain ⟨hlt, -⟩ := List.getElem?_eq_some_iff.mp hi
      rw [hdrStart] at hlo hhi
      split at hlo
      · omega
      · rename_i hs
        rw [if_neg hs] at hhi
        simpa using firstFit_covered _ hb sha hlo hhi hi

@[simp] theorem freeRefs_zero (refs : UInt16) : freeRefs refs 0 = 0 := by
  rw [freeRefs]
  split
  · rfl
  · rename_i h
    push Not at h
    have hle : refs = 0 := by
      apply UInt16.toNat_inj.mp
      simpa [UInt16.le_iff_toNat_le] using h.2
    exact absurd hle h.1

/-- Freeing one reference is truncated subtraction. -/
theorem toNat_freeRefs_one (i : UInt16) : (freeRefs 1 i).toNat = i.toNat - 1 := by
  rw [freeRefs]
  split
  · rename_i h
    have hlt : i < 1 := h.resolve_left (by decide)
    have : i.toNat < 1 := UInt16.lt_iff_toNat_lt.mp hlt
    simp
    omega
  · rename_i h
    push Not at h
    have hle : (1 : UInt16) ≤ i := UInt16.not_lt.mp h.2
    rw [UInt16.toNat_sub_of_le _ _ hle]
    rfl

/-- Block `i` belongs to the blocks that an operation on `length` bytes at byte
`pos` touches. -/
def touches (pos length i : ℕ) : Prop :=
  pos / sdtBlockLen ≤ i ∧ i < pos / sdtBlockLen + smbDatblocks length

instance (pos length i : ℕ) : Decidable (touches pos length i) := by
  unfold touches
  infer_instance

theorem datCount_freemsgdat {attr : UInt16} (hattr : attr &&& smbHyperalloc = 0)
    (sda : List UInt16) (pos length : ℕ) (refs : UInt16) (i : ℕ) :
    datCount (smbFreemsgdat attr sda pos length refs).2 i =
      if touches pos length i then freeRefs refs (datCount sda i) else datCount sda i := by
  simp only [smbFreemsgdat, hattr, ne_eq, not_true_eq_false, if_false, datCount,
    List.getD_eq_getElem?_getD, getElem?_updateRun, touches]
  split
  · cases sda[i]? <;> simp
  · rfl

theorem datCount_incdat (sda : List UInt16) (pos length : ℕ) (refs : UInt16) {i : ℕ}
    (hi : i < sda.length) :
    datCount (smbIncdat sda pos length refs).2 i =
      if touches pos length i then datCount sda i + refs else datCount sda i := by
  simp only [smbIncdat, datCount, List.getD_eq_getElem?_getD, getElem?_updateRun, touches]
  split
  · rw [List.getElem?_eq_getElem hi]
    rfl
  · rfl

@[simp] theorem length_freemsgdat (attr : UInt16) (sda : List UInt16) (pos length : ℕ)
    (refs : UInt16) : (smbFreemsgdat attr sda pos length refs).2.length = sda.length := by
  rw [smbFreemsgdat]
  split
  · rfl
  · exact length_updateRun _ _ _ _

@[simp] theorem length_incdat (sda : List UInt16) (pos length : ℕ) (refs : UInt16) :
    (smbIncdat sda pos length refs).2.length = sda.length := length_updateRun _ _ _ _

/-- Both table operations succeed when the blocks they touch are in the table. -/
theorem smbFreemsgdat_fst {attr : UInt16} {sda : List UInt16} {pos length : ℕ} {refs : UInt16}
    (h : ∀ i, touches pos length i → i < sda.length) :
    (smbFreemsgdat attr sda pos length refs).1 = .success := by
  rw [smbFreemsgdat]
  split
  · rfl
  · have hrun : (updateRun (freeRefs refs) (smbDatblocks length) (pos / sdtBlockLen) sda).1 =
        true := by
      rw [updateRun_fst_eq_true_iff]
      by_cases hz : smbDatblocks length = 0
      · exact Or.inl hz
      · have := h (pos / sdtBlockLen + (smbDatblocks length - 1)) ⟨by omega, by omega⟩
        exact Or.inr (by omega)
    simp [hrun]

theorem smbIncdat_fst {sda : List UInt16} {pos length : ℕ} {refs : UInt16}
    (h : ∀ i, touches pos length i → i < sda.length) :
    (smbIncdat sda pos length refs).1 = .success := by
  have hrun : (updateRun (· + refs) (smbDatblocks length) (pos / sdtBlockLen) sda).1 = true := by
    rw [updateRun_fst_eq_true_iff]
    by_cases hz : smbDatblocks length = 0
    · exact Or.inl hz
    · have := h (pos / sdtBlockLen + (smbDatblocks length - 1)) ⟨by omega, by omega⟩
      exact Or.inr (by omega)
  simp [smbIncdat, hrun]

/-- A block behind the table is free. -/
theorem datCount_of_length_le {sda : List UInt16} {i : ℕ} (h : sda.length ≤ i) :
    datCount sda i = 0 := by
  rw [datCount, List.getD_eq_getElem?_getD, List.getElem?_eq_none h]
  rfl

theorem datCount_ne_zero_lt_length {sda : List UInt16} {i : ℕ} (h : datCount sda i ≠ 0) :
    i < sda.length := by
  by_contra hlen
  exact h (datCount_of_length_le (Nat.not_lt.mp hlen))

end Synchronet.Smblib
