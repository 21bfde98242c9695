import Synchronet.Smblib.DataRefs

/-!
# Freeing what was stored

The blocks of a text are allocated for body and tail together, and freed for each
of them from the block that its first byte lies in.  The two agree unless the tail
starts in the middle of a block and reaches further into its last block than it
would from a block boundary; and both are off once the 32-bit positions in the
header wrap around.
-/

namespace Synchronet.Smblib

/-- When freeing the fields of a text of `b` and `t` bytes gives back exactly the
blocks that it got from block `start` on. -/
def FreeUndoes (sda : List UInt16) (start b t : ℕ) : Prop :=
  b + t = 0 ∨
    start < 2 ^ 24 ∧
      (b = 0 ∨ t = 0 ∨
        if sdtBlockLen * start + b < 2 ^ 32 then b % sdtBlockLen + (t - 1) % sdtBlockLen < sdtBlockLen
        else
          smbDatblocks (b + t) = smbDatblocks b ∧ datCount sda (start + b / sdtBlockLen - 2 ^ 24) = 0)

/-- The blocks of body and tail in the arithmetic of the code. -/
theorem weight_blocks {msg : SmbMsg} {b t start : ℕ} (hfields : msg.dfields = textFields b t)
    (hshort : b + t < 2 ^ 31) (hoffset : msg.hdr.offset = UInt32.ofNat (sdtBlockLen * start))
    (i : ℕ) :
    msg.weight i =
      (if start % 2 ^ 24 ≤ i ∧ i < start % 2 ^ 24 + smbDatblocks b then 1 else 0) +
        if (start % 2 ^ 24 + b / 256) % 2 ^ 24 ≤ i ∧
          i < (start % 2 ^ 24 + b / 256) % 2 ^ 24 + smbDatblocks t then 1 else 0 := by
  have hpos : msg.hdr.offset.toNat = 256 * (start % 2 ^ 24) := by
    rw [hoffset, UInt32.toNat_ofNat']
    simp only [sdtBlockLen]
    omega
  have hbody : msg.hdr.offset.toNat / sdtBlockLen = start % 2 ^ 24 := by
    rw [hpos]
    exact Nat.mul_div_cancel_left _ (by decide)
  have htail : (msg.hdr.offset.toNat + b) % 2 ^ 32 / sdtBlockLen =
      (start % 2 ^ 24 + b / 256) % 2 ^ 24 := by
    rw [hpos]
    simp only [sdtBlockLen]
    omega
  simp only [weight_text hfields hshort, touches, hbody, htail]

/-- Every fresh block has weight and every other block is free or has none, exactly
when freeing undoes the allocation. -/
theorem forall_weight_iff {sda : List UInt16} {start b t : ℕ} {weight : ℕ → ℕ} (hpos : b + t ≠ 0)
    (hshort : b + t < 2 ^ 31)
    (hweight : ∀ i, weight i =
      (if start % 2 ^ 24 ≤ i ∧ i < start % 2 ^ 24 + smbDatblocks b then 1 else 0) +
        if (start % 2 ^ 24 + b / 256) % 2 ^ 24 ≤ i ∧
          i < (start % 2 ^ 24 + b / 256) % 2 ^ 24 + smbDatblocks t then 1 else 0) :
    (∀ i, if start ≤ i ∧ i < start + smbDatblocks (b + t) then weight i ≠ 0
        else (datCount sda i).toNat = 0 ∨ weight i = 0) ↔ FreeUndoes sda start b t := by
  have hfree : ∀ i, weight i = 0 ↔
      ¬ (start % 2 ^ 24 ≤ i ∧ i < start % 2 ^ 24 + smbDatblocks b) ∧
        ¬ ((start % 2 ^ 24 + b / 256) % 2 ^ 24 ≤ i ∧
          i < (start % 2 ^ 24 + b / 256) % 2 ^ 24 + smbDatblocks t) := by
    intro i
    rw [hweight i]
    split <;> split <;> omega
  clear hweight
  simp only [FreeUndoes, hpos, false_or, ← UInt16.toNat_inj (b := 0)]
  simp only [smbDatblocks_eq, sdtBlockLen] at hfree ⊢
  by_cases hstart : start < 2 ^ 24
  · simp only [Nat.mod_eq_of_lt hstart] at hfree
    simp only [hstart, true_and]
    by_cases hb : b = 0
    · simp only [hb, true_or, iff_true]
      intro i
      have := hfree i
      split <;> omega
    by_cases ht : t = 0
    · simp only [ht, true_or, or_true, iff_true]
      intro i
      have := hfree i
      split <;> omega
    simp only [hb, ht, false_or]
    split
    · -- the tail starts below 4 GiB
      constructor
      · intro h
        have hlast := h (start + (b + t + 255) / 256 - 1)
        have := hfree (start + (b + t + 255) / 256 - 1)
        rw [if_pos (by omega)] at hlast
        omega
      · intro h i
        have := hfree i
        split <;> omega
    · -- the tail is freed at the start of the table
      constructor
      · intro h
        have hlast := h (start + (b + t + 255) / 256 - 1)
        have hfirst := h (start + b / 256 - 2 ^ 24)
        have := hfree (start + (b + t + 255) / 256 - 1)
        have := hfree (start + b / 256 - 2 ^ 24)
        rw [if_pos (by omega)] at hlast
        rw [if_neg (by omega)] at hfirst
        have h0 : (0 : UInt16).toNat = 0 := rfl
        omega
      · rintro ⟨hblocks, hcount⟩ i
        have := hfree i
        split
        · omega
        · by_cases hi : i = start + b / 256 - 2 ^ 24
          · rw [hi]
            exact Or.inl hcount
          · omega
  · simp only [hstart, false_and, iff_false]
    intro h
    have hfirst := h start
    have := hfree start
    rw [if_pos (by omega)] at hfirst
    omega

section FreeUndoes

variable {attr : UInt16} (hattr : attr &&& smbHyperalloc = 0) {storage : Storage}
  {sda : List UInt16} {msg : SmbMsg} {b t : ℕ} (hshort : b + t < 2 ^ 31)
  (hfields : msg.dfields = textFields b t)
  (hoffset : b + t ≠ 0 → msg.hdr.offset = UInt32.ofNat (sdtBlockLen *
    dataStart (dataMode storage) sda (smbDatblocks (b + t))))

include hshort hfields hoffset

/-- Wherever the positions point, freeing touches blocks of the table only. -/
theorem inTable_storeBlocks : msg.InTable (storeBlocks storage sda (b + t)) := by
  intro d hd i hi
  have hweight := weight_ne_zero hd hi
  by_cases hzero : b + t = 0
  · obtain ⟨rfl, rfl⟩ : b = 0 ∧ t = 0 := by omega
    rw [weight_text hfields hshort, if_neg (not_touches_zero _ _),
      if_neg (not_touches_zero _ _)] at hweight
    exact absurd rfl hweight
  · refine @lt_length_storeBlocks storage sda _ _ ?_ (Nat.pos_of_ne_zero hzero)
    have hbody := datblocks_mono (Nat.le_add_right b t)
    have htail := datblocks_tail_le b t
    have hstart := Nat.mod_le (dataStart (dataMode storage) sda (smbDatblocks (b + t))) (2 ^ 24)
    rw [weight_blocks hfields hshort (hoffset hzero)] at hweight
    by_contra hout
    rw [if_neg (by omega), if_neg (by omega)] at hweight
    exact absurd rfl hweight

include hattr

theorem freeUndoes_iff :
    (∀ i, datCount (smbFreemsgDfields attr (storeBlocks storage sda (b + t)) msg 1).2 i =
        datCount sda i) ↔
      FreeUndoes sda (dataStart (dataMode storage) sda (smbDatblocks (b + t))) b t := by
  obtain ⟨sda', hfree, -, hcount⟩ := smbFreemsgDfields_one hattr
    (@inTable_storeBlocks storage sda _ _ _ hshort hfields hoffset)
  rw [hfree]
  by_cases hzero : b + t = 0
  · obtain ⟨rfl, rfl⟩ : b = 0 ∧ t = 0 := by omega
    refine ⟨fun _ ↦ Or.inl hzero, fun _ i ↦ ?_⟩
    rw [← UInt16.toNat_inj, hcount i, weight_text hfields hshort, if_neg (not_touches_zero _ _),
      if_neg (not_touches_zero _ _), storeBlocks, if_pos hzero]
    rfl
  · have hweight := weight_blocks hfields hshort (hoffset hzero)
    have hstored := datCount_storeBlocks storage sda (b + t)
    have hunused : ∀ i, dataStart (dataMode storage) sda (smbDatblocks (b + t)) ≤ i →
        i < dataStart (dataMode storage) sda (smbDatblocks (b + t)) + smbDatblocks (b + t) →
        datCount sda i = 0 := fun i ↦
      datCount_dataStart (dataMode storage) sda (smbDatblocks_pos (Nat.pos_of_ne_zero hzero))
    generalize dataStart (dataMode storage) sda (smbDatblocks (b + t)) = start at *
    rw [← forall_weight_iff hzero hshort hweight]
    refine forall_congr' fun i ↦ ?_
    rw [← UInt16.toNat_inj, hcount i, hstored i]
    have h0 : (0 : UInt16).toNat = 0 := rfl
    have h1 : (1 : UInt16).toNat = 1 := rfl
    split
    · rename_i hi
      rw [hunused i hi.1 hi.2]
      omega
    · omega

end FreeUndoes

/-! ## Adding and freeing a message -/

/-- Every count that went from free to allocated is free again, and every other
count is what it was. -/
def NoLeak (before added freed : List UInt16) : Prop :=
  ∀ i, if datCount before i = 0 ∧ datCount added i ≠ 0 then datCount freed i = 0
    else datCount freed i = datCount before i

theorem noLeak_iff {before added freed : List UInt16} :
    NoLeak before added freed ↔ ∀ i, datCount freed i = datCount before i := by
  refine forall_congr' fun i ↦ ?_
  split
  · rename_i hi
    rw [hi.1]
  · exact Iff.rfl

/-- A message that was added and is freed leaves no block behind exactly when freeing
its fields undoes the allocation, and `smb_freemsg` accepts the message at all. -/
theorem addmsg_freemsg_noLeak_iff {env : Env} {smb smb' : Smb} {msg msg' : SmbMsg}
    {storage : Storage} {dupechkHashes : ℕ} {xlat : UInt16} {body tail : Option (List UInt8)}
    {b t : ℕ} (hattr : smb.status.attr &&& smbHyperalloc = 0)
    (hlengths : storedLengths env xlat body tail = (b, t))
    (hadd : smbAddmsg env smb msg storage dupechkHashes xlat body tail =
      some (.success, smb', msg')) :
    NoLeak smb.sda smb'.sda (smbFreemsg smb' msg').2.sda ↔
      b + t = 0 ∨
        (msg.conv.to_ = none → smbValidHdrOffset smb.status msg.idx.offset.toNat = true) ∧
          FreeUndoes smb.sda (dataStart (dataMode storage) smb.sda (smbDatblocks (b + t))) b t := by
  obtain ⟨hattr', ⟨hcode, -⟩ | ⟨-, -, hshort, hfields, hoffset, ⟨-, hsda⟩ | ⟨hcode, -⟩⟩⟩ :=
    smbAddmsg_cases hlengths hadd hattr
  · exact absurd rfl hcode
  · have hvalid := smbAddmsg_validHdrOffset hadd
    have hundo := @freeUndoes_iff _ (hattr'.symm ▸ hattr) _ smb.sda _ _ _ hshort hfields hoffset
    rw [noLeak_iff, sda_smbFreemsg (hattr'.symm ▸ hattr), hsda]
    by_cases hzero : b + t = 0
    · refine ⟨fun _ ↦ Or.inl hzero, fun _ ↦ ?_⟩
      split
      · exact hundo.mpr (Or.inl hzero)
      · rw [storeBlocks, if_pos hzero]
        exact fun _ ↦ rfl
    · rw [or_iff_right hzero, ← hvalid]
      split
      · rename_i hv
        rw [hundo, and_iff_right hv]
      · rename_i hv
        have hblocks := smbDatblocks_pos (Nat.pos_of_ne_zero hzero)
        refine ⟨fun h ↦ ?_, fun h ↦ absurd h.1 hv⟩
        -- nothing is freed, so that the first block stays allocated
        have hfirst := h (dataStart (dataMode storage) smb.sda (smbDatblocks (b + t)))
        rw [datCount_storeBlocks, if_pos ⟨le_refl _, by omega⟩,
          datCount_dataStart (dataMode storage) smb.sda hblocks (le_refl _) (by omega)] at hfirst
        exact absurd hfirst (by decide)
  · exact absurd rfl hcode

/-- A body of one letter is freed completely. -/
theorem addmsg_freemsg_noLeak_iff_one :
    ∃ smb msg, smbAddmsg plainEnv (smbCreate {}) addressedMsg .selfpack 0 xlatNone (some [98]) none =
        some (.success, smb, msg) ∧
      (NoLeak [] smb.sda (smbFreemsg smb msg).2.sda ↔
        3 + 0 = 0 ∨ (addressedMsg.conv.to_ = none → smbValidHdrOffset (smbCreate {}).status
          addressedMsg.idx.offset.toNat = true) ∧ FreeUndoes [] 0 3 0) := by
  have hadd : (smbAddmsg plainEnv (smbCreate {}) addressedMsg .selfpack 0 xlatNone
      (some [98]) none).map Prod.fst = some .success := by decide +kernel
  obtain ⟨⟨code, smb, msg⟩, hadd, rfl⟩ := Option.map_eq_some_iff.mp hadd
  exact ⟨smb, msg, hadd, addmsg_freemsg_noLeak_iff (by decide) rfl hadd⟩

/-- The end of a body of 198 letters and a tail of 254 letters share a block, and the
tail reaches into the next one, which is not freed. -/
theorem not_noLeak_shared_block :
    ¬ ∀ (env : Env) (smb smb' : Smb) (msg msg' : SmbMsg) (storage : Storage) (dupechkHashes : ℕ)
      (xlat : UInt16) (body tail : Option (List UInt8)),
      smb.status.attr &&& smbHyperalloc = 0 →
        smbAddmsg env smb msg storage dupechkHashes xlat body tail = some (.success, smb', msg') →
        NoLeak smb.sda smb'.sda (smbFreemsg smb' msg').2.sda := by
  intro hall
  have hadd : (smbAddmsg plainEnv (smbCreate {}) addressedMsg .selfpack 0 xlatNone
      (some (List.replicate 198 98)) (some (List.replicate 254 99))).map
        (fun r ↦ (r.1, datCount (smbFreemsg r.2.1 r.2.2).2.sda 1)) = some (.success, 1) := by
    decide +kernel
  obtain ⟨⟨code, smb, msg⟩, hadd, hcount⟩ := Option.map_eq_some_iff.mp hadd
  simp only [Prod.mk.injEq] at hcount
  obtain ⟨rfl, hcount⟩ := hcount
  have hfree := noLeak_iff.mp (hall _ _ _ _ _ _ _ _ _ _ (by decide) hadd) 1
  rw [hcount] at hfree
  exact absurd hfree (by decide)

end Synchronet.Smblib
