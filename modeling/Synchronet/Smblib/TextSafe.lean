import Synchronet.Encode.LzhDecode
import Synchronet.Smblib.Text

/-!
# Texts from corrupt data

Whatever the message base holds, `smb_getmsgtxt` keeps inside the buffers it has asked for
except in two places.  A comment without data is printed through a null pointer, and a
compressed field whose stored length is negative shrinks the buffer of the text while the
decoder takes the length for one of 2^63 bytes or more.
-/

namespace Synchronet.Smblib

open RecordFile LittleEndian Encode

/-- The text is decoded by `lzh_decode`. -/
def TextEnv.withLzh (t : TextEnv) : TextEnv := { t with decode := lzhDecode }

theorem TextStep.bind_eq_fault {σ τ : Type} {r : TextStep σ} {f : σ → TextStep τ} :
    r.bind f = .fault ↔ r = .fault ∨ ∃ s, r = .next s ∧ f s = .fault := by
  cases r with
  | fault => simp [TextStep.bind]
  | done buf => simp [TextStep.bind]
  | next s => simp [TextStep.bind]

theorem TextStep.bind_eq_next {σ τ : Type} {r : TextStep σ} {f : σ → TextStep τ} {s' : τ} :
    r.bind f = .next s' ↔ ∃ s, r = .next s ∧ f s = .next s' := by
  cases r with
  | fault => simp [TextStep.bind]
  | done buf => simp [TextStep.bind]
  | next s => simp [TextStep.bind]

/-- Steps for the items of a list fault at one of them, which those before it lead to. -/
theorem TextStep.run_eq_fault {α σ : Type} {step : ℕ → α → σ → TextStep σ}
    {run : ℕ → List α → σ → TextStep σ} (hnil : ∀ i s, run i [] s = .next s)
    (hcons : ∀ i a as s, run i (a :: as) s = (step i a s).bind (run (i + 1) as)) {i : ℕ}
    {as : List α} {s : σ} :
    run i as s = .fault ↔ ∃ as₁ a as₂ s', as = as₁ ++ a :: as₂ ∧ run i as₁ s = .next s' ∧
      step (i + as₁.length) a s' = .fault := by
  induction as generalizing i s with
  | nil =>
      rw [hnil]
      constructor
      · intro h
        cases h
      · rintro ⟨as₁, a, as₂, -, has, -⟩
        exact absurd has (by simp)
  | cons b as ih =>
      rw [hcons, bind_eq_fault]
      constructor
      · rintro (hfault | ⟨s₁, hstep, hfault⟩)
        · exact ⟨[], b, as, s, rfl, hnil i s, hfault⟩
        · obtain ⟨as₁, a, as₂, s', rfl, hrun, hfault⟩ := ih.mp hfault
          refine ⟨b :: as₁, a, as₂, s', rfl, ?_, ?_⟩
          · rw [hcons]
            exact bind_eq_next.mpr ⟨s₁, hstep, hrun⟩
          · rwa [List.length_cons, Nat.add_comm as₁.length, ← Nat.add_assoc]
      · rintro ⟨as₁, a, as₂, s', has, hrun, hfault⟩
        cases as₁ with
        | nil =>
            obtain ⟨rfl, rfl⟩ := List.cons.inj has
            rw [hnil] at hrun
            cases hrun
            exact Or.inl hfault
        | cons c as₁ =>
            obtain ⟨rfl, rfl⟩ := List.cons.inj has
            rw [hcons, bind_eq_next] at hrun
            obtain ⟨s₁, hstep, hrun⟩ := hrun
            rw [List.length_cons, Nat.add_comm as₁.length, ← Nat.add_assoc] at hfault
            exact Or.inr ⟨s₁, hstep, ih.mpr ⟨as₁, a, as₂, s', rfl, hrun, hfault⟩⟩

/-! ## Comments -/

/-- The header field is printed as part of the text. -/
def HField.IsComment (h : HField) : Prop := h.type = smbComment ∨ h.type = smtpsysmsg

/-- A line is printed into the room that has been asked for. -/
theorem exists_putLine {buf : Buffer UInt8} {str : List UInt8}
    (hroom : buf.items.length + str.length + 3 ≤ buf.size) : ∃ buf', putLine buf str = some buf' := by
  have hlen : buf.items.length + (str ++ [13, 10, 0]).length ≤ buf.size := by
    rw [List.length_append]
    exact hroom
  obtain ⟨buf', hput, -, -⟩ := Buffer.exists_put hlen
  exact ⟨_, by rw [putLine, hput, Option.map_some]⟩

/-- The step of `smb_getmsgtxt` for one header field. -/
theorem getComments_cons (mem : ℕ → Bool) (h : HField) (hs : List HField) (buf : Buffer UInt8) :
    getComments mem (h :: hs) buf = (getComments mem [h] buf).bind (getComments mem hs) := by
  rw [getComments, getComments]
  split
  · rfl
  · cases h.dat with
    | none => rfl
    | some dat =>
        dsimp only
        split
        · rfl
        · cases putLine (buf.resize (buf.items.length + ((cstr dat).length + 2) + 1)) (cstr dat) with
          | none => rfl
          | some buf' => rfl

theorem getComment_eq_fault {mem : ℕ → Bool} {h : HField} {buf : Buffer UInt8} :
    getComments mem [h] buf = .fault ↔ h.IsComment ∧ h.dat = none := by
  rw [getComments, HField.IsComment]
  by_cases htype : h.type ≠ smbComment ∧ h.type ≠ smtpsysmsg
  · rw [if_pos htype]
    constructor
    · intro h
      cases h
    · rintro ⟨hcomment | hcomment, -⟩
      · exact absurd hcomment htype.1
      · exact absurd hcomment htype.2
  · rw [if_neg htype]
    have hcomment : h.type = smbComment ∨ h.type = smtpsysmsg := by tauto
    cases h.dat with
    | none => simp [hcomment]
    | some dat =>
        dsimp only
        set size := buf.items.length + ((cstr dat).length + 2) + 1 with hsize
        have hitems := Buffer.items_resize (show buf.items.length ≤ size by omega)
        obtain ⟨buf', hline⟩ := exists_putLine (show (buf.resize size).items.length +
          (cstr dat).length + 3 ≤ (buf.resize size).size by rw [hitems, Buffer.size_resize]; omega)
        rw [hline]
        split
        · simp
        · simp [TextStep.ofOption, TextStep.bind, getComments]

/-- The comments fault at the first one without data. -/
theorem getComments_eq_fault {mem : ℕ → Bool} {hs : List HField} {buf : Buffer UInt8} :
    getComments mem hs buf = .fault ↔
      ∃ hs₁ h hs₂ buf', hs = hs₁ ++ h :: hs₂ ∧ getComments mem hs₁ buf = .next buf' ∧
        h.IsComment ∧ h.dat = none := by
  rw [@TextStep.run_eq_fault _ _ (fun _ h buf ↦ getComments mem [h] buf)
    (fun _ hs buf ↦ getComments mem hs buf) (fun _ _ ↦ rfl)
    (fun _ h hs buf ↦ getComments_cons mem h hs buf) 0]
  simp only [getComment_eq_fault]

/-! ## Data fields -/

theorem exists_endText {buf : Buffer UInt8} (hroom : buf.items.length + 3 ≤ buf.size) :
    ∃ buf', endText buf = some buf' := by
  rw [endText]
  split
  · exact ⟨buf, rfl⟩
  · rename_i c cs hitems
    apply exists_putLine
    have hlen := List.length_take_le' (1 + (cs.rdropWhile (· = 0)).length) buf.items
    rw [Buffer.items_truncate, Buffer.size_truncate]
    change _ + 0 + 3 ≤ _
    omega

/-- A field that is not compressed leaves room for the line end. -/
theorem getPlain_ne_fault {mem : ℕ → Bool} {sdt : List UInt8} {pos length : ℕ}
    {buf : Buffer UInt8} :
    getPlain mem sdt pos length buf ≠ .fault ∧
      ∀ buf', getPlain mem sdt pos length buf = .next buf' → buf'.items.length + 3 ≤ buf'.size := by
  rw [getPlain]
  split
  · exact ⟨by simp, by simp⟩
  · have hitems := Buffer.items_resize (show buf.items.length ≤ buf.items.length + length + 3 by omega)
    have hread : (readAt sdt pos length).length ≤ length := List.length_take_le _ _
    obtain ⟨buf₁, hput, hbuf₁, hsize⟩ := @Buffer.exists_put _
      (buf.resize (buf.items.length + length + 3)) (readAt sdt pos length)
      (by rw [hitems, Buffer.size_resize]; omega)
    rw [hput]
    refine ⟨by simp [TextStep.ofOption], ?_⟩
    intro buf' hnext
    obtain rfl : buf₁ = buf' := by simpa [TextStep.ofOption] using hnext
    rw [hbuf₁, hsize, hitems, Buffer.size_resize, List.length_append]
    omega

/-- The stored length of a compressed field. -/
def storedLength (t : TextEnv) (sdt : List UInt8) (i pos length : ℕ) : ℤ :=
  int32At (loaded (readAt sdt pos length) (t.heap i))

/-- The stored length is negative, but the smaller buffer for the text is not refused. -/
def Shrinks (t : TextEnv) (sdt : List UInt8) (i pos length : ℕ) (buf : Buffer UInt8) : Prop :=
  t.mem length ∧ storedLength t sdt i pos length < 0 ∧
    (buf.items.length + storedLength t sdt i pos length + 3 = 0 ∨
      granted t.mem (buf.items.length + storedLength t sdt i pos length + 3))

section Lzh

variable {t : TextEnv} {sdt : List UInt8} {i pos length : ℕ} {buf : Buffer UInt8}

theorem getLzh_withLzh : getLzh t.withLzh sdt i pos length buf =
    if ¬ t.mem length then .done buf
    else if buf.items.length + storedLength t sdt i pos length + 3 = 0 then .fault
    else if ¬ granted t.mem (buf.items.length + storedLength t sdt i pos length + 3) then .done buf
    else
      match lzhDecode (loaded (readAt sdt pos length) (t.heap i)) (Int32.ofNat length).toInt
          (storedLength t sdt i pos length + 3).toNat with
      | none => .fault
      | some text => TextStep.ofOption
          ((buf.resize (buf.items.length + storedLength t sdt i pos length + 3).toNat).put
            ((List.range (storedLength t sdt i pos length).toNat).map (loaded text (t.fresh i)))) := rfl

/-- A negative length for which the buffer is not refused makes the decoder leave it. -/
theorem getLzh_of_neg (hneg : storedLength t sdt i pos length < 0) :
    (getLzh t.withLzh sdt i pos length buf = .fault ↔ Shrinks t sdt i pos length buf) ∧
      ∀ buf', getLzh t.withLzh sdt i pos length buf ≠ .next buf' := by
  have hdecode : ∀ inlen, lzhDecode (loaded (readAt sdt pos length) (t.heap i)) inlen
      (storedLength t sdt i pos length + 3).toNat = none :=
    fun inlen ↦ lzhDecode_eq_none hneg (by omega)
  rw [getLzh_withLzh, hdecode, Shrinks]
  by_cases hmem : t.mem length
  · rw [if_neg (not_not_intro hmem)]
    by_cases hzero : buf.items.length + storedLength t sdt i pos length + 3 = 0
    · simp [hzero, hmem, hneg]
    · rw [if_neg hzero]
      by_cases hgranted : granted t.mem (buf.items.length + storedLength t sdt i pos length + 3)
      · simp [hgranted, hmem, hneg]
      · simp [hgranted, hzero]
  · simp [hmem]

/-- Another length leaves room for the line end. -/
theorem getLzh_of_nonneg (hpos : 0 ≤ storedLength t sdt i pos length) :
    getLzh t.withLzh sdt i pos length buf ≠ .fault ∧
      ∀ buf', getLzh t.withLzh sdt i pos length buf = .next buf' →
        buf'.items.length + 3 ≤ buf'.size := by
  obtain ⟨text, hdecode, -⟩ := @lzhDecode_eq (loaded (readAt sdt pos length) (t.heap i))
    (Int32.ofNat length).toInt (storedLength t sdt i pos length + 3).toNat hpos
    (show storedLength t sdt i pos length ≤ _ by omega)
  rw [getLzh_withLzh, hdecode, if_neg (show ¬ (_ = (0 : ℤ)) by omega)]
  split
  · simp
  split
  · simp
  generalize storedLength t sdt i pos length = lzhlen at hpos
  have hitems := Buffer.items_resize (b := buf)
    (show buf.items.length ≤ ((buf.items.length : ℤ) + lzhlen + 3).toNat by omega)
  set new := buf.resize ((buf.items.length : ℤ) + lzhlen + 3).toNat with hnew
  set bytes := (List.range lzhlen.toNat).map (loaded text (t.fresh i)) with hbytes
  have hlen : bytes.length = lzhlen.toNat := by rw [hbytes, List.length_map, List.length_range]
  have hsize : new.size = ((buf.items.length : ℤ) + lzhlen + 3).toNat := rfl
  obtain ⟨buf₁, hput, hbuf₁, hsize₁⟩ := Buffer.exists_put
    (show new.items.length + bytes.length ≤ new.size by rw [hitems]; omega)
  dsimp only
  rw [hput]
  refine ⟨by simp [TextStep.ofOption], ?_⟩
  intro buf' hnext
  obtain rfl : buf₁ = buf' := by simpa [TextStep.ofOption] using hnext
  rw [hbuf₁, hsize₁, hsize, List.length_append, hitems]
  omega

end Lzh

/-- The field is one of compressed text whose stored length is negative, for which the
smaller buffer is not refused. -/
structure ShrinksText (t : TextEnv) (sdt : List UInt8) (msg : SmbMsg) (mode i : ℕ) (d : DField)
    (s : TextState) : Prop where
  asked : wanted mode d = true
  lzh : fieldXlat sdt (dfieldPos msg d) s.xlat = (true, xlatNone)
  nonempty : 4 < d.length.toNat
  shrinks : Shrinks t sdt i (dfieldPos msg d + 4) (d.length.toNat - 4) s.buf

theorem getField_eq_fault {t : TextEnv} {sdt : List UInt8} {msg : SmbMsg} {mode i : ℕ}
    {d : DField} {s : TextState} :
    getField t.withLzh sdt msg mode i d s = .fault ↔ ShrinksText t sdt msg mode i d s := by
  have hend : ∀ (r : TextStep (Buffer UInt8)) (xlat : UInt16),
      (∀ buf, r = .next buf → buf.items.length + 3 ≤ buf.size) →
      ((r.bind fun buf ↦ (TextStep.ofOption (endText buf)).bind fun buf ↦
        TextStep.next (TextState.mk buf xlat)) = .fault ↔ r = .fault) := by
    intro r xlat hroom
    cases r with
    | fault => simp [TextStep.bind]
    | done buf => simp [TextStep.bind]
    | next buf =>
        obtain ⟨buf', hbuf'⟩ := exists_endText (hroom buf rfl)
        simp [TextStep.bind, TextStep.ofOption, hbuf']
  rw [getField]
  by_cases hasked : wanted mode d = true
  · rw [if_neg (not_not_intro hasked)]
    dsimp only
    rcases hxlat : fieldXlat sdt (dfieldPos msg d) s.xlat with ⟨lzh, xlat⟩
    dsimp only
    by_cases hskip : xlat ≠ xlatNone ∨ lzh = true ∧ d.length.toNat - 4 < 1
    · rw [if_pos hskip]
      refine ⟨fun hfault ↦ (nomatch hfault), fun h ↦ ?_⟩
      have hlzh := h.lzh
      rw [hxlat, Prod.mk.injEq] at hlzh
      have hlen := h.nonempty
      rcases hskip with hne | ⟨-, hempty⟩
      · exact absurd hlzh.2 hne
      · omega
    · rw [if_neg hskip]
      push Not at hskip
      obtain ⟨rfl, hlen⟩ := hskip
      cases lzh with
      | false =>
          obtain ⟨hplain, hroom⟩ := @getPlain_ne_fault t.mem sdt (dfieldPos msg d + 2)
            (d.length.toNat - 2) s.buf
          refine (hend _ _ hroom).trans ⟨fun hfault ↦ absurd hfault hplain, fun h ↦ ?_⟩
          have hlzh := h.lzh
          rw [hxlat, Prod.mk.injEq] at hlzh
          exact absurd hlzh.1 Bool.false_ne_true
      | true =>
          have hlen := hlen rfl
          have hfields : ShrinksText t sdt msg mode i d s ↔
              Shrinks t sdt i (dfieldPos msg d + 4) (d.length.toNat - 4) s.buf :=
            ⟨fun h ↦ h.shrinks, fun h ↦ ⟨hasked, hxlat, by omega, h⟩⟩
          rw [hfields]
          by_cases hneg : storedLength t sdt i (dfieldPos msg d + 4) (d.length.toNat - 4) < 0
          · obtain ⟨hfault, hnext⟩ := @getLzh_of_neg t sdt i (dfieldPos msg d + 4)
              (d.length.toNat - 4) s.buf hneg
            exact (hend _ _ fun buf hbuf ↦ absurd hbuf (hnext buf)).trans hfault
          · obtain ⟨hne, hroom⟩ := @getLzh_of_nonneg t sdt i (dfieldPos msg d + 4)
              (d.length.toNat - 4) s.buf (not_lt.mp hneg)
            exact (hend _ _ hroom).trans ⟨fun hfault ↦ absurd hfault hne,
              fun h ↦ absurd h.2.1 hneg⟩
  · rw [if_pos hasked]
    exact ⟨fun hfault ↦ (nomatch hfault), fun h ↦ absurd h.asked hasked⟩

/-! ## The whole text -/

/-- What the comments leave for the data fields. -/
def commentSteps (t : TextEnv) (msg : SmbMsg) (mode : ℕ) : TextStep (Buffer UInt8) :=
  if mode.testBit 2 then .next startBuffer else getComments t.mem msg.hfield startBuffer

/-- No comment that is printed is without data, and for no compressed field that is read
is the stored length negative and the smaller buffer not refused. -/
structure TextSafe (t : TextEnv) (sdt : List UInt8) (msg : SmbMsg) (mode : ℕ) : Prop where
  comments : mode.testBit 2 = false → ∀ hs₁ h hs₂ buf, msg.hfield = hs₁ ++ h :: hs₂ →
    getComments t.mem hs₁ startBuffer = .next buf → h.IsComment → h.dat ≠ none
  lengths : ∀ buf, commentSteps t msg mode = .next buf →
    ∀ ds₁ d ds₂ s, msg.dfields = ds₁ ++ d :: ds₂ →
      getFields t.withLzh sdt msg mode 0 ds₁ ⟨buf, t.xlat⟩ = .next s →
        ¬ ShrinksText t sdt msg mode ds₁.length d s

theorem commentSteps_eq_fault {t : TextEnv} {msg : SmbMsg} {mode : ℕ} :
    commentSteps t msg mode = .fault ↔ mode.testBit 2 = false ∧ ∃ hs₁ h hs₂ buf,
      msg.hfield = hs₁ ++ h :: hs₂ ∧ getComments t.mem hs₁ startBuffer = .next buf ∧
        h.IsComment ∧ h.dat = none := by
  rw [commentSteps]
  cases mode.testBit 2 with
  | true => simp
  | false =>
      rw [if_neg Bool.false_ne_true, getComments_eq_fault]
      simp

theorem getFields_eq_fault {t : TextEnv} {sdt : List UInt8} {msg : SmbMsg} {mode i : ℕ}
    {ds : List DField} {s : TextState} :
    getFields t.withLzh sdt msg mode i ds s = .fault ↔ ∃ ds₁ d ds₂ s', ds = ds₁ ++ d :: ds₂ ∧
      getFields t.withLzh sdt msg mode i ds₁ s = .next s' ∧
        ShrinksText t sdt msg mode (i + ds₁.length) d s' := by
  rw [TextStep.run_eq_fault (fun _ _ ↦ rfl) (fun _ _ _ _ ↦ rfl)]
  simp only [getField_eq_fault]

/-- `smb_getmsgtxt` returns, and what it and `lzh_decode` write lies inside the buffers,
if and only if no comment without data is printed and no stored length is negative with a
smaller buffer that is not refused. -/
theorem getmsgtxt_inBounds_iff (t : TextEnv) (sdt : List UInt8) (msg : SmbMsg) (mode : ℕ) :
    (smbGetmsgtxt t.withLzh sdt msg mode).isSome ↔ t.mem 1 → TextSafe t sdt msg mode := by
  have hsteps : msgtxtSteps t.withLzh sdt msg mode = .fault ↔ ¬ TextSafe t sdt msg mode := by
    change (commentSteps t msg mode).bind _ = _ ↔ _
    rw [TextStep.bind_eq_fault, commentSteps_eq_fault]
    simp only [getFields_eq_fault, Nat.zero_add]
    constructor
    · rintro (⟨hmode, hs₁, h, hs₂, buf, hhs, hrun, hcomment, hdat⟩ |
        ⟨buf, hbuf, ds₁, d, ds₂, s, hds, hrun, hshrinks⟩) hsafe
      · exact hsafe.comments hmode hs₁ h hs₂ buf hhs hrun hcomment hdat
      · exact hsafe.lengths buf hbuf ds₁ d ds₂ s hds hrun hshrinks
    · intro hunsafe
      by_contra hnone
      push Not at hnone
      obtain ⟨hcomments, hlengths⟩ := hnone
      exact hunsafe ⟨hcomments, hlengths⟩
  rw [smbGetmsgtxt]
  by_cases hmem : t.mem 1
  · rw [if_neg (show ¬ ¬ t.withLzh.mem 1 from not_not_intro hmem)]
    cases hr : msgtxtSteps t.withLzh sdt msg mode with
    | fault =>
        have hunsafe := hsteps.mp hr
        simp [hmem, hunsafe]
    | done buf =>
        have hsafe : TextSafe t sdt msg mode := by
          by_contra hunsafe
          rw [hsteps.mpr hunsafe] at hr
          cases hr
        simp [hsafe]
    | next s =>
        have hsafe : TextSafe t sdt msg mode := by
          by_contra hunsafe
          rw [hsteps.mpr hunsafe] at hr
          cases hr
        simp [hsafe]
  · rw [if_pos (show ¬ t.withLzh.mem 1 from hmem)]
    simp [hmem]

/-- All requests for memory are met. -/
def ampleEnv : TextEnv where
  mem := fun _ ↦ true
  heap := fun _ _ ↦ 0
  fresh := fun _ _ ↦ 0
  xlat := 0
  decode := lzhDecode

/-- A compressed body whose stored length is -1. -/
def shrinkingText : List UInt8 := [9, 0, 0, 0, 0xff, 0xff, 0xff, 0xff, 0]

def shrinkingMsg : SmbMsg := { hdr := { totalDfields := 1 }, dfield := [⟨textBody, 0, 9⟩] }

/-- `lzh_decode` writes more than the two bytes that a buffer for a text of length -1
has. -/
theorem getmsgtxt_outOfBounds : smbGetmsgtxt ampleEnv shrinkingText shrinkingMsg 0 = none := by
  have hshrinks : ShrinksText ampleEnv shrinkingText shrinkingMsg 0 0 ⟨textBody, 0, 9⟩
      ⟨startBuffer, ampleEnv.xlat⟩ :=
    ⟨by decide, by decide, by decide, rfl, by decide +kernel, Or.inr (by decide +kernel)⟩
  have hsteps : msgtxtSteps ampleEnv.withLzh shrinkingText shrinkingMsg 0 = .fault := by
    rw [msgtxtSteps, TextStep.bind_eq_fault]
    exact Or.inr ⟨startBuffer, rfl, getFields_eq_fault.mpr
      ⟨[], ⟨textBody, 0, 9⟩, [], ⟨startBuffer, ampleEnv.xlat⟩, rfl, rfl, hshrinks⟩⟩
  have henv : ampleEnv.withLzh = ampleEnv := rfl
  rw [henv] at hsteps
  rw [smbGetmsgtxt, if_neg (by decide), hsteps]

end Synchronet.Smblib
