import Synchronet.Encode.LzhTree

/-!
# The LZH decoder on any input

The decoder keeps inside its tables whatever it reads: each walk down the tree ends at a
symbol, each position byte has an entry, and the window is cyclic.  What decides whether it
keeps inside its output is the length at the start of the input alone.  The count of bytes
is compared with that length as an unsigned number, so a negative length is never reached.
-/

namespace Synchronet.Encode

open LittleEndian

variable {inbuf : ℕ → UInt8} {inlen : ℤ}

/-! ## Codes -/

theorem lzhGetbit_lt (b : BitIn) : (lzhGetbit inbuf inlen b).1 < 2 := by
  rw [lzhGetbit]
  dsimp only
  split
  · exact one_lt_two
  · exact two_pos

theorem lzhGetbyte_lt (b : BitIn) : (lzhGetbyte inbuf inlen b).1 < 256 := by
  have hlt := (fillBits inbuf inlen b).getbuf.toNat_lt
  change ((fillBits inbuf inlen b).getbuf >>> 8).toNat < 256
  rw [UInt16.toNat_shiftRight, Nat.shiftRight_eq_div_pow]
  change _ / 2 ^ 8 < 256
  omega

/-- A walk down the tree ends at a symbol: each step comes to a smaller place. -/
theorem walkDown_eq {h : Huff} (htree : SiblingTree 313 (fun _ ↦ 0) h.tree) {n c : ℕ}
    (hc : c < 626 ∧ c < n ∨ 627 ≤ c ∧ c < 941) (b : BitIn) :
    ∃ leaf b', walkDown inbuf inlen h.son (n + 1) c b = some (leaf, b') ∧
      627 ≤ leaf ∧ leaf < 941 := by
  induction n generalizing c b with
  | zero =>
      rcases hc with ⟨-, hlt⟩ | hleaf
      · exact absurd hlt (Nat.not_lt_zero c)
      · have hend : ¬ c < lzhT := show ¬ c < 627 by omega
        exact ⟨c, b, if_neg hend, hleaf⟩
  | succ n ih =>
      rcases hc with ⟨hlt, hn⟩ | hleaf
      · have hbit := @lzhGetbit_lt inbuf inlen b
        have hgo : c < lzhT := show c < 627 by omega
        rw [walkDown, if_pos hgo]
        generalize lzhGetbit inbuf inlen b = r at hbit ⊢
        obtain ⟨bit, b'⟩ := r
        dsimp only at hbit ⊢
        have hplace : c + bit < lzhT + 1 := show c + bit < 628 by omega
        rw [Table.read_eq hplace]
        apply ih
        by_cases hson : h.son.get (c + bit) < 627
        · left
          have hdown : h.son.get (c + bit) + 1 < c + bit :=
            htree.son_lt (show c + bit < 627 by omega) hson
          omega
        · right
          have hleaf := (htree.leaf (c + bit) (show c + bit < 627 by omega)
            (show 627 ≤ h.son.get (c + bit) by omega)).1
          exact ⟨by omega, hleaf⟩
      · have hend : ¬ c < lzhT := show ¬ c < 627 by omega
        exact ⟨c, b, if_neg hend, hleaf⟩

theorem lzhDecodeChar_eq {h : Huff} (hok : h.Ok) (b : BitIn) :
    ∃ c h' b', lzhDecodeChar inbuf inlen h b = some (c, h', b') ∧ c < 314 ∧ h'.Ok := by
  have hroot : lzhR < lzhT + 1 := show 626 < 628 by omega
  have hson : h.son.get 626 < 626 ∧ h.son.get 626 < 627 ∨
      627 ≤ h.son.get 626 ∧ h.son.get 626 < 941 := by
    by_cases hlt : h.son.get 626 < 627
    · left
      have hdown : h.son.get 626 + 1 < 626 := hok.tree.son_lt (by omega) hlt
      omega
    · right
      exact ⟨by omega, (hok.tree.leaf 626 (by omega) (show 627 ≤ h.son.get 626 by omega)).1⟩
  obtain ⟨leaf, b', hwalk, hlow, hhigh⟩ := @walkDown_eq inbuf inlen _ hok.tree _ _ hson b
  obtain ⟨h', hupdate, hok'⟩ := lzhUpdate_eq hok (show leaf - 627 < 314 by omega)
  refine ⟨leaf - 627, h', b', ?_, by omega, hok'⟩
  rw [lzhDecodeChar, Table.read_eq hroot]
  change (walkDown inbuf inlen h.son (627 + 1) (h.son.get 626) b >>= fun r ↦
    lzhUpdate h (r.1 - 627) >>= fun h ↦ some (r.1 - 627, h, r.2)) = _
  rw [hwalk]
  simp only [Option.bind_eq_bind, Option.bind_some, hupdate]

theorem lzhDecodePosition_eq (b : BitIn) :
    ∃ pos b', lzhDecodePosition inbuf inlen b = some (pos, b') := by
  have hlt := @lzhGetbyte_lt inbuf inlen b
  rw [lzhDecodePosition]
  generalize lzhGetbyte inbuf inlen b = r at hlt ⊢
  obtain ⟨i, b'⟩ := r
  dsimp only at hlt ⊢
  have hcode : lzhDCode.length = 256 := by decide +kernel
  have hlen : lzhDLen.length = 256 := by decide +kernel
  rw [List.getElem?_eq_getElem (hlt.trans_eq hcode.symm),
    List.getElem?_eq_getElem (hlt.trans_eq hlen.symm)]
  exact ⟨_, _, rfl⟩

/-! ## Text -/

/-- The window with room for `room` bytes of output. -/
structure Window.Ok (room : ℕ) (w : Window) : Prop where
  place : w.r < lzhN
  size : w.out.size = room

variable {room textsize : ℕ}

/-- A byte for which there is room is written. -/
theorem Window.putChar_eq {w : Window} (hok : w.Ok room) (hlt : w.out.items.length < room)
    (c : UInt8) :
    ∃ w', w.putChar c = some w' ∧ w'.Ok room ∧
      w'.out.items.length = w.out.items.length + 1 := by
  have hroom : w.out.items.length + [c].length ≤ w.out.size := hlt.trans_eq hok.size.symm
  obtain ⟨out, hput, hitems, hsize⟩ := Buffer.exists_put hroom
  have hplace : w.r < lzhN + lzhF - 1 := hok.place.trans (by decide)
  rw [Window.putChar, hput]
  simp only [Option.bind_eq_bind, Option.bind_some, Table.write_eq hplace]
  refine ⟨_, rfl, ⟨Nat.mod_lt _ (by decide), hsize.trans hok.size⟩, ?_⟩
  change out.items.length = _
  rw [hitems, List.length_append, List.length_singleton]

/-- The output never changes its room. -/
theorem Window.putChar_size {w w' : Window} {c : UInt8} (h : w.putChar c = some w') :
    w'.out.size = w.out.size := by
  simp only [Window.putChar, Option.bind_eq_bind, Option.bind_eq_some_iff, Option.some.injEq] at h
  obtain ⟨out, hput, t, -, rfl⟩ := h
  exact (Buffer.put_eq_some_iff.mp hput).2.2

theorem Window.copy_size {i j k : ℕ} {w w' : Window} (h : w.copy textsize i j k = some w') :
    w'.out.size = w.out.size := by
  induction j generalizing k w with
  | zero =>
      rw [← Option.some.inj h]
  | succ j ih =>
      rw [Window.copy] at h
      split at h
      · simp only [Option.bind_eq_bind, Option.bind_eq_some_iff] at h
        obtain ⟨c, -, w₁, hput, hrest⟩ := h
        exact (ih hrest).trans (putChar_size hput)
      · rw [← Option.some.inj h]

/-- A copy stays below the length of the text, and its first byte is written. -/
theorem Window.copy_eq {i j k : ℕ} {w : Window} (hok : w.Ok room) (hsize : textsize ≤ room)
    (hle : w.out.items.length ≤ textsize) :
    ∃ w', w.copy textsize i j k = some w' ∧ w'.Ok room ∧ w'.out.items.length ≤ textsize ∧
      w.out.items.length ≤ w'.out.items.length ∧
      (w.out.items.length < textsize → 0 < j → w.out.items.length < w'.out.items.length) := by
  induction j generalizing k w with
  | zero => exact ⟨w, rfl, hok, hle, le_refl _, fun _ hj ↦ absurd hj (Nat.not_lt_zero 0)⟩
  | succ j ih =>
      rw [Window.copy]
      by_cases hlt : w.out.items.length < textsize
      · have hplace : (i + k) % lzhN < lzhN + lzhF - 1 :=
          (Nat.mod_lt (i + k) (show 0 < 4096 by decide)).trans (show 4096 < 4155 by decide)
        obtain ⟨w₁, hput, hok₁, hlen₁⟩ :=
          putChar_eq hok (hlt.trans_le hsize) (w.textBuf.get ((i + k) % lzhN))
        obtain ⟨w', hcopy, hok', hle', hmono, -⟩ := @ih (k + 1) w₁ hok₁ (by omega)
        rw [if_pos hlt, Table.read_eq hplace]
        simp only [Option.bind_eq_bind, Option.bind_some, hput]
        exact ⟨w', hcopy, hok', hle', by omega, fun _ _ ↦ by omega⟩
      · rw [if_neg hlt]
        exact ⟨w, rfl, hok, hle, le_refl _, fun h ↦ absurd h hlt⟩

/-! ## The main loop -/

/-- A round of the main loop writes a byte at least and stays below the length of the
text. -/
theorem decodeStep_eq {h : Huff} (b : BitIn) {w : Window} (hok : h.Ok) (hw : w.Ok room)
    (hsize : textsize ≤ room) (hlt : w.out.items.length < textsize) :
    ∃ h' b' w', decodeStep inbuf inlen textsize h b w = some (h', b', w') ∧ h'.Ok ∧ w'.Ok room ∧
      w'.out.items.length ≤ textsize ∧ w.out.items.length < w'.out.items.length := by
  obtain ⟨c, h', b', hchar, hc, hok'⟩ := @lzhDecodeChar_eq inbuf inlen h hok b
  rw [decodeStep, hchar]
  simp only [Option.bind_eq_bind, Option.bind_some]
  split
  · obtain ⟨w', hput, hw', hlen⟩ := w.putChar_eq hw (hlt.trans_le hsize) (UInt8.ofNat c)
    rw [hput]
    exact ⟨h', b', w', rfl, hok', hw', by omega, by omega⟩
  · obtain ⟨pos, b₂, hpos⟩ := @lzhDecodePosition_eq inbuf inlen b'
    rw [hpos, Option.bind_some]
    dsimp only
    obtain ⟨w', hcopy, hw', hle, -, hgrow⟩ := @Window.copy_eq room textsize
      (((w.r : ℤ) - pos - 1) % lzhN).toNat (c - 255 + lzhThreshold) 0 w hw hsize hlt.le
    rw [hcopy]
    exact ⟨h', b₂, w', rfl, hok', hw', hle, hgrow hlt (Nat.succ_pos _)⟩

theorem decodeStep_size {h h' : Huff} {b b' : BitIn} {w w' : Window}
    (hstep : decodeStep inbuf inlen textsize h b w = some (h', b', w')) :
    w'.out.size = w.out.size := by
  simp only [decodeStep, Option.bind_eq_bind, Option.bind_eq_some_iff] at hstep
  obtain ⟨⟨c, h₁, b₁⟩, -, hstep⟩ := hstep
  dsimp only at hstep
  split at hstep
  · simp only [Option.bind_eq_some_iff, Option.some.injEq, Prod.mk.injEq] at hstep
    obtain ⟨w₁, hput, -, -, rfl⟩ := hstep
    exact Window.putChar_size hput
  · simp only [Option.bind_eq_some_iff, Option.some.injEq, Prod.mk.injEq] at hstep
    obtain ⟨⟨pos, b₂⟩, -, w₁, hcopy, -, -, rfl⟩ := hstep
    exact Window.copy_size hcopy

/-- A length for which there is room is reached. -/
theorem decodeLoop_eq {n : ℕ} {h : Huff} (b : BitIn) {w : Window} (hok : h.Ok) (hw : w.Ok room)
    (hsize : textsize ≤ room) (hle : w.out.items.length ≤ textsize)
    (hn : textsize - w.out.items.length < n) :
    ∃ out, decodeLoop inbuf inlen textsize n h b w = some out ∧ out.items.length = textsize := by
  induction n generalizing h b w with
  | zero => exact absurd hn (Nat.not_lt_zero _)
  | succ n ih =>
      rw [decodeLoop]
      by_cases hlt : w.out.items.length < textsize
      · obtain ⟨h', b', w', hstep, hok', hw', hle', hgrow⟩ :=
          @decodeStep_eq inbuf inlen room textsize h b w hok hw hsize hlt
        rw [if_pos hlt, hstep]
        exact ih b' hok' hw' hle' (by omega)
      · rw [if_neg hlt]
        exact ⟨w.out, rfl, by omega⟩

/-- The loop only ends at a length for which there is room. -/
theorem decodeLoop_size {n : ℕ} {h : Huff} {b : BitIn} {w : Window} {out : Buffer UInt8}
    (hloop : decodeLoop inbuf inlen textsize n h b w = some out) :
    textsize ≤ out.items.length ∧ out.size = w.out.size := by
  induction n generalizing h b w with
  | zero => cases hloop
  | succ n ih =>
      rw [decodeLoop] at hloop
      split at hloop
      · simp only [Option.bind_eq_bind, Option.bind_eq_some_iff] at hloop
        obtain ⟨⟨h', b', w'⟩, hstep, hrest⟩ := hloop
        obtain ⟨hle, hsize⟩ := ih hrest
        exact ⟨hle, hsize.trans (decodeStep_size hstep)⟩
      · rename_i hge
        obtain rfl := Option.some.inj hloop
        exact ⟨not_lt.mp hge, rfl⟩

/-! ## The decoder -/

theorem fillWindow_eq : ∃ t : Table UInt8 (lzhN + lzhF - 1),
    forUpto (lzhN - lzhF) (fun i t ↦ t.write i 32) ⟨fun _ ↦ 0⟩ = some t := by
  obtain ⟨t, ht, -⟩ := @forUpto_rule (Table UInt8 (lzhN + lzhF - 1)) (fun i t ↦ t.write i 32)
    (lzhN - lzhF) ⟨fun _ ↦ 0⟩ (fun _ _ ↦ True) trivial
    (fun i t hi _ ↦ ⟨_, Table.write_eq (hi.trans (by decide)) 32, trivial⟩)
  exact ⟨t, ht⟩

/-- A length that is not negative and for which there is room is what the decoder
writes. -/
theorem lzhDecode_eq (hpos : 0 ≤ int32At inbuf) (hroom : int32At inbuf ≤ room) :
    ∃ text, lzhDecode inbuf inlen room = some text ∧ text.length = (int32At inbuf).toNat := by
  rw [lzhDecode]
  split
  · rename_i hzero
    exact ⟨[], rfl, by rw [hzero]; rfl⟩
  · obtain ⟨h, hstart, hok⟩ := lzhStartHuff_eq
    obtain ⟨t, ht⟩ := fillWindow_eq
    have hbound : int32At inbuf < 2 ^ 31 :=
      (Int32.ofNat (ofLe [inbuf 0, inbuf 1, inbuf 2, inbuf 3])).toInt_lt
    have hmod : (int32At inbuf % 2 ^ 64).toNat = (int32At inbuf).toNat := by omega
    obtain ⟨out, hloop, hlen⟩ := @decodeLoop_eq inbuf inlen room (int32At inbuf).toNat (room + 1) h
      { incnt := 4 } ⟨t, lzhN - lzhF, ⟨[], room, Nat.zero_le room⟩⟩ hok
      ⟨show 4036 < 4096 by decide, rfl⟩ (by omega) (Nat.zero_le _) (by change _ - 0 < _; omega)
    rw [hstart, ht, hmod]
    simp only [Option.bind_eq_bind, Option.bind_some, hloop]
    exact ⟨out.items, rfl, hlen⟩

/-- A negative length is not reached inside the output. -/
theorem lzhDecode_eq_none (hneg : int32At inbuf < 0) (hroom : room < 2 ^ 32) :
    lzhDecode inbuf inlen room = none := by
  have hbound : -2 ^ 31 ≤ int32At inbuf :=
    (Int32.ofNat (ofLe [inbuf 0, inbuf 1, inbuf 2, inbuf 3])).le_toInt
  rw [Option.eq_none_iff_forall_not_mem]
  intro text htext
  rw [Option.mem_def, lzhDecode, if_neg (by omega)] at htext
  simp only [Option.bind_eq_bind, Option.bind_eq_some_iff, Option.some.injEq] at htext
  obtain ⟨h, -, t, -, out, hloop, -⟩ := htext
  -- the length is read as one of 2^63 bytes or more
  obtain ⟨hreached, hsize⟩ := decodeLoop_size hloop
  have hsize : out.size = room := hsize
  have hfits := out.fits
  omega

end Synchronet.Encode
