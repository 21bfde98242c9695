import Synchronet.Lib.RefCount
import Synchronet.Lib.Words
import Synchronet.Smblib.AddMessage

/-!
# References to data blocks

`smb_incmsg_dfields` and `smb_freemsg_dfields` move the count of a block once for
each data field that touches it.  The weight of a message at a block is the number
of these fields: a block that holds the end of the body and the start of the tail
has weight two, and the last block of the tail may have weight none, since the
blocks of a field are counted from the block that its first byte lies in.
-/

namespace Synchronet.Smblib

open RecordFile Words

/-- How many data fields of a message touch a block. -/
def SmbMsg.weight (msg : SmbMsg) (i : ℕ) : ℕ :=
  msg.dfields.countP fun d ↦ decide (touches (dfieldPos msg d) d.length.toNat i)

/-- The blocks that hold a byte of the data of a message. -/
def SmbMsg.dataBlocks (msg : SmbMsg) : Set ℕ :=
  {i | ∃ byte, msg.hdr.offset.toNat ≤ byte ∧
    byte < msg.hdr.offset.toNat + smbGetmsgdatlen msg ∧ byte / sdtBlockLen = i}

/-- The fields of a message touch blocks of the table only. -/
def SmbMsg.InTable (msg : SmbMsg) (sda : List UInt16) : Prop :=
  ∀ d ∈ msg.dfields, ∀ i, touches (dfieldPos msg d) d.length.toNat i → i < sda.length

section Text

variable {msg msg' : SmbMsg} (h : msg.text = msg'.text)

include h

theorem dfieldPos_eq_of_text (d : DField) : dfieldPos msg d = dfieldPos msg' d := by
  simp only [SmbMsg.text, Prod.mk.injEq] at h
  rw [dfieldPos, dfieldPos, h.1]

theorem dfields_eq_of_text : msg.dfields = msg'.dfields := (Prod.mk.inj h).2

theorem weight_eq_of_text : msg.weight = msg'.weight := by
  funext i
  simp only [SmbMsg.weight, dfields_eq_of_text h, dfieldPos_eq_of_text h]

theorem dataBlocks_eq_of_text : msg.dataBlocks = msg'.dataBlocks := by
  simp only [SmbMsg.dataBlocks, smbGetmsgdatlen, dfields_eq_of_text h, (Prod.mk.inj h).1]

theorem inTable_iff_of_text (sda : List UInt16) : msg.InTable sda ↔ msg'.InTable sda := by
  simp only [SmbMsg.InTable, dfields_eq_of_text h, dfieldPos_eq_of_text h]

theorem smbFreemsgDfields_eq_of_text (attr : UInt16) (sda : List UInt16) (refs : UInt16) :
    smbFreemsgDfields attr sda msg refs = smbFreemsgDfields attr sda msg' refs := by
  simp only [smbFreemsgDfields, dfields_eq_of_text h, dfieldPos_eq_of_text h]

end Text

/-! ## The loops over the data fields -/

theorem dfieldLoop_cons {op : List UInt16 → DField → Code × List UInt16} {sda : List UInt16}
    {d : DField} (ds : List DField) (h : (op sda d).1 = .success) :
    dfieldLoop op (d :: ds) sda = dfieldLoop op ds (op sda d).2 := by
  rw [dfieldLoop]
  generalize op sda d = r at h
  obtain ⟨code, sda'⟩ := r
  dsimp only at h
  rw [h]

theorem freeLoop {attr : UInt16} (hattr : attr &&& smbHyperalloc = 0) (pos : DField → ℕ)
    {ds : List DField} {sda : List UInt16}
    (hin : ∀ d ∈ ds, ∀ i, touches (pos d) d.length.toNat i → i < sda.length) :
    ∃ sda', dfieldLoop (fun sda d ↦ smbFreemsgdat attr sda (pos d) d.length.toNat 1) ds sda =
        (.success, sda') ∧ sda'.length = sda.length ∧
      ∀ i, (datCount sda' i).toNat =
        (datCount sda i).toNat - ds.countP fun d ↦ decide (touches (pos d) d.length.toNat i) := by
  induction ds generalizing sda with
  | nil => exact ⟨sda, rfl, rfl, fun i ↦ by simp⟩
  | cons d ds ih =>
      have hd := hin d List.mem_cons_self
      obtain ⟨sda', hloop, hlen, hcount⟩ :=
        @ih (smbFreemsgdat attr sda (pos d) d.length.toNat 1).2 fun d' hd' i hi ↦ by
          rw [length_freemsgdat]
          exact hin d' (List.mem_cons_of_mem _ hd') i hi
      refine ⟨sda', ?_, by rw [hlen, length_freemsgdat], fun i ↦ ?_⟩
      · rw [dfieldLoop_cons ds (smbFreemsgdat_fst hd), hloop]
      · rw [hcount i, datCount_freemsgdat hattr, List.countP_cons]
        by_cases ht : touches (pos d) d.length.toNat i
        · simp only [ht, if_true, decide_true, toNat_freeRefs_one]
          omega
        · simp [ht]

theorem incLoop (pos : DField → ℕ) (refs : UInt16) {ds : List DField} {sda : List UInt16}
    (hin : ∀ d ∈ ds, ∀ i, touches (pos d) d.length.toNat i → i < sda.length)
    (hmax : ∀ i, (datCount sda i).toNat +
      (ds.countP fun d ↦ decide (touches (pos d) d.length.toNat i)) * refs.toNat ≤ 0xffff) :
    ∃ sda', dfieldLoop (fun sda d ↦ smbIncdat sda (pos d) d.length.toNat refs) ds sda =
        (.success, sda') ∧ sda'.length = sda.length ∧
      ∀ i, (datCount sda' i).toNat = (datCount sda i).toNat +
        (ds.countP fun d ↦ decide (touches (pos d) d.length.toNat i)) * refs.toNat := by
  induction ds generalizing sda with
  | nil => exact ⟨sda, rfl, rfl, fun i ↦ by simp⟩
  | cons d ds ih =>
      have hd := hin d List.mem_cons_self
      have hstep : ∀ i, (datCount (smbIncdat sda (pos d) d.length.toNat refs).2 i).toNat =
          (datCount sda i).toNat + if touches (pos d) d.length.toNat i then refs.toNat else 0 := by
        intro i
        by_cases ht : touches (pos d) d.length.toNat i
        · have hle := hmax i
          rw [List.countP_cons, if_pos (decide_eq_true ht), Nat.add_mul, Nat.one_mul] at hle
          rw [datCount_incdat _ _ _ _ (hd i ht), if_pos ht, if_pos ht, UInt16.toNat_add,
            Nat.mod_eq_of_lt (by omega)]
        · rw [if_neg ht, Nat.add_zero]
          by_cases hi : i < sda.length
          · rw [datCount_incdat _ _ _ _ hi, if_neg ht]
          · rw [datCount_of_length_le (Nat.not_lt.mp hi),
              datCount_of_length_le (by rw [length_incdat]; omega)]
      have hsum : ∀ i, ((d :: ds).countP fun d ↦ decide (touches (pos d) d.length.toNat i)) *
            refs.toNat = (if touches (pos d) d.length.toNat i then refs.toNat else 0) +
          (ds.countP fun d ↦ decide (touches (pos d) d.length.toNat i)) * refs.toNat := by
        intro i
        rw [List.countP_cons, Nat.add_mul, Nat.add_comm]
        by_cases ht : touches (pos d) d.length.toNat i <;> simp [ht]
      obtain ⟨sda', hloop, hlen, hcount⟩ :=
        @ih (smbIncdat sda (pos d) d.length.toNat refs).2
          (fun d' hd' i hi ↦ by
            rw [length_incdat]
            exact hin d' (List.mem_cons_of_mem _ hd') i hi)
          (fun i ↦ by
            have hle := hmax i
            rw [hsum i] at hle
            rw [hstep i]
            omega)
      refine ⟨sda', ?_, by rw [hlen, length_incdat], fun i ↦ ?_⟩
      · rw [dfieldLoop_cons ds (smbIncdat_fst hd), hloop]
      · rw [hcount i, hstep i, hsum i]
        omega

/-- Every block that is touched has weight. -/
theorem weight_ne_zero {msg : SmbMsg} {d : DField} (hd : d ∈ msg.dfields) {i : ℕ}
    (hi : touches (dfieldPos msg d) d.length.toNat i) : msg.weight i ≠ 0 :=
  (List.countP_pos_iff.mpr ⟨d, hd, decide_eq_true hi⟩).ne'

/-- Freeing takes the weight of the message from every count. -/
theorem smbFreemsgDfields_one {attr : UInt16} (hattr : attr &&& smbHyperalloc = 0) {msg : SmbMsg}
    {sda : List UInt16} (hin : msg.InTable sda) :
    ∃ sda', smbFreemsgDfields attr sda msg 1 = (.success, sda') ∧ sda'.length = sda.length ∧
      ∀ i, (datCount sda' i).toNat = (datCount sda i).toNat - msg.weight i :=
  freeLoop hattr (dfieldPos msg) hin

/-- Further references add the weight of the message, as long as no count overflows. -/
theorem smbIncmsgDfields_ok {attr : UInt16} (hattr : attr &&& smbHyperalloc = 0) {msg : SmbMsg}
    {sda : List UInt16} {refs : UInt16} (hin : msg.InTable sda)
    (hmax : ∀ i, (datCount sda i).toNat + msg.weight i * refs.toNat ≤ 0xffff) :
    ∃ sda', smbIncmsgDfields attr sda msg refs = (.success, sda') ∧ sda'.length = sda.length ∧
      ∀ i, (datCount sda' i).toNat = (datCount sda i).toNat + msg.weight i * refs.toNat := by
  rw [smbIncmsgDfields, if_neg (not_not.mpr hattr)]
  exact incLoop (dfieldPos msg) refs hin hmax

/-- What `smb_freemsg` does to the data. -/
theorem sda_smbFreemsg {smb : Smb} (hattr : smb.status.attr &&& smbHyperalloc = 0)
    (msg : SmbMsg) :
    (smbFreemsg smb msg).2.sda =
      if smbValidHdrOffset smb.status msg.idx.offset.toNat then
        (smbFreemsgDfields smb.status.attr smb.sda msg 1).2 else smb.sda := by
  rw [smbFreemsg, if_neg (not_not.mpr hattr)]
  cases smbValidHdrOffset smb.status msg.idx.offset.toNat with
  | false => rfl
  | true =>
      simp only [Bool.not_true, Bool.false_eq_true, if_false, if_true]
      generalize smbFreemsgDfields smb.status.attr smb.sda msg 1 = r
      obtain ⟨code, sda⟩ := r
      cases code <;> rfl

/-! ## The weights of a text -/

/-- Body and tail stay within the blocks of the whole text. -/
theorem datblocks_tail_le (b t : ℕ) : b / 256 + smbDatblocks t ≤ smbDatblocks (b + t) := by
  rw [smbDatblocks_eq, smbDatblocks_eq]
  omega

theorem datblocks_mono {m n : ℕ} (h : m ≤ n) : smbDatblocks m ≤ smbDatblocks n := by
  rw [smbDatblocks_eq, smbDatblocks_eq]
  omega

theorem not_touches_zero (pos i : ℕ) : ¬ touches pos 0 i := by
  rw [touches, smbDatblocks_zero]
  omega

/-- Where the tail starts, in the 32-bit sum of the code. -/
theorem dfieldPos_tail (msg : SmbMsg) {b : ℕ} (hb : b < 2 ^ 32) (n : ℕ) :
    dfieldPos msg ⟨textTail, UInt32.ofNat b, UInt32.ofNat n⟩ =
      (msg.hdr.offset.toNat + b) % 2 ^ 32 := by
  rw [dfieldPos, UInt32.toNat_add, toNat_ofNat_uint32 hb]

theorem dfieldPos_body (msg : SmbMsg) (n : ℕ) :
    dfieldPos msg ⟨textBody, 0, UInt32.ofNat n⟩ = msg.hdr.offset.toNat := by
  rw [dfieldPos, UInt32.add_zero]

section Weights

variable {msg : SmbMsg} {b t : ℕ} (hfields : msg.dfields = textFields b t)

include hfields

theorem forall_dfields_text {P : DField → Prop} :
    (∀ d ∈ msg.dfields, P d) ↔
      (b ≠ 0 → P ⟨textBody, 0, UInt32.ofNat b⟩) ∧
        (t ≠ 0 → P ⟨textTail, UInt32.ofNat b, UInt32.ofNat t⟩) := by
  rw [hfields, textFields]
  by_cases hb : b = 0 <;> by_cases ht : t = 0 <;> simp [hb, ht]

variable (hshort : b + t < 2 ^ 31)

include hshort

theorem weight_text (i : ℕ) :
    msg.weight i = (if touches msg.hdr.offset.toNat b i then 1 else 0) +
      if touches ((msg.hdr.offset.toNat + b) % 2 ^ 32) t i then 1 else 0 := by
  have htail := dfieldPos_tail msg (b := b) (by omega) t
  have hbody := dfieldPos_body msg b
  have hb' : (UInt32.ofNat b).toNat = b := toNat_ofNat_uint32 (by omega)
  have ht' : (UInt32.ofNat t).toNat = t := toNat_ofNat_uint32 (by omega)
  rw [SmbMsg.weight, hfields, textFields]
  by_cases hb : b = 0
  · by_cases ht : t = 0
    · simp [hb, ht, not_touches_zero]
    · rw [hb] at htail
      simp only [hb, if_true, ht, if_false, List.nil_append, List.countP_singleton, htail, ht',
        not_touches_zero, Nat.zero_add, decide_eq_true_eq]
  · by_cases ht : t = 0
    · simp only [hb, ht, if_true, if_false, List.append_nil, List.countP_singleton, hbody, hb',
        not_touches_zero, Nat.add_zero, decide_eq_true_eq]
    · simp only [hb, ht, if_false, List.countP_append, List.countP_singleton, hbody, htail, hb',
        ht', decide_eq_true_eq]

theorem smbGetmsgdatlen_text : smbGetmsgdatlen msg = b + t := by
  have hb' : (UInt32.ofNat b).toNat = b := toNat_ofNat_uint32 (by omega)
  have ht' : (UInt32.ofNat t).toNat = t := toNat_ofNat_uint32 (by omega)
  rw [smbGetmsgdatlen, hfields, textFields, List.map_append, List.sum_append]
  by_cases hb : b = 0 <;> by_cases ht : t = 0 <;>
    simp only [hb, ht, if_true, if_false, List.map_nil, List.map_cons, List.sum_nil,
      List.sum_cons, hb', ht', Nat.add_zero, Nat.zero_add]

theorem mem_dataBlocks_text {start : ℕ} (hstart : msg.hdr.offset.toNat = sdtBlockLen * start)
    (i : ℕ) : i ∈ msg.dataBlocks ↔ start ≤ i ∧ i < start + smbDatblocks (b + t) := by
  rw [SmbMsg.dataBlocks, smbGetmsgdatlen_text hfields hshort, hstart, smbDatblocks_eq]
  simp only [Set.mem_ofPred_eq, sdtBlockLen]
  constructor
  · rintro ⟨byte, hlo, hhi, rfl⟩
    omega
  · rintro ⟨hlo, hhi⟩
    exact ⟨256 * i, by omega, by omega, by omega⟩

/-- Below 4 GiB the fields touch only the blocks of the data. -/
theorem weight_text_eq_zero {start : ℕ} (hstart : msg.hdr.offset.toNat = sdtBlockLen * start)
    (hfits : sdtBlockLen * start + (if t = 0 then 0 else b) < 2 ^ 32) {i : ℕ}
    (hi : ¬ (start ≤ i ∧ i < start + smbDatblocks (b + t))) : msg.weight i = 0 := by
  have hbody : ¬ touches msg.hdr.offset.toNat b i := by
    have := datblocks_mono (Nat.le_add_right b t)
    rw [hstart, touches, Nat.mul_div_cancel_left _ (by decide)]
    omega
  have htail : ¬ touches ((msg.hdr.offset.toNat + b) % 2 ^ 32) t i := by
    by_cases ht : t = 0
    · rw [ht]
      exact not_touches_zero _ _
    · have := datblocks_tail_le b t
      rw [if_neg ht] at hfits
      rw [hstart, Nat.mod_eq_of_lt hfits, touches, Nat.mul_add_div (by decide)]
      simp only [sdtBlockLen]
      omega
  rw [weight_text hfields hshort, if_neg hbody, if_neg htail]

end Weights

/-! ## Fresh data -/

theorem datCount_storeBlocks (storage : Storage) (sda : List UInt16) (length i : ℕ) :
    datCount (storeBlocks storage sda length) i =
      if dataStart (dataMode storage) sda (smbDatblocks length) ≤ i ∧
        i < dataStart (dataMode storage) sda (smbDatblocks length) + smbDatblocks length then 1
      else datCount sda i := by
  rw [storeBlocks]
  by_cases hzero : length = 0
  · rw [if_pos hzero, hzero, smbDatblocks_zero, if_neg (by omega)]
  · rw [if_neg hzero, datCount_alloc _ _ (smbDatblocks_pos (Nat.pos_of_ne_zero hzero))]

theorem lt_length_storeBlocks {storage : Storage} {sda : List UInt16} {length i : ℕ}
    (hi : i < dataStart (dataMode storage) sda (smbDatblocks length) + smbDatblocks length)
    (hpos : 0 < length) : i < (storeBlocks storage sda length).length := by
  have hb := smbDatblocks_pos hpos
  have hlast := datCount_storeBlocks storage sda length
    (dataStart (dataMode storage) sda (smbDatblocks length) + (smbDatblocks length - 1))
  rw [if_pos (by omega)] at hlast
  have := @datCount_ne_zero_lt_length (storeBlocks storage sda length) _ (by rw [hlast]; decide)
  omega

end Synchronet.Smblib
