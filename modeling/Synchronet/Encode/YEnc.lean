import Synchronet.Encode.Base64

/-!
# The yEnc codec (yenc.c)

`yencode` adds a bias to every byte, and escapes the sums that are critical; `ydecode` takes both
away.  The loop of `yencode` goes on at the byte behind the source.
-/

namespace Synchronet.Encode

/-! ## The functions -/

def yencBias : UInt8 := 42

def yencEscapeChar : UInt8 := 61

def yencEscapeBias : UInt8 := 64

/-- The sums that are escaped. -/
def isCritical (ch : UInt8) : Bool := ch ∈ [0, 13, 10, yencEscapeChar]

/-- A buffer, the bytes that have been read and those that have been written. -/
structure YEncState where
  target : List UInt8
  rd : ℕ
  wr : ℕ

/-- The `int` that is returned. -/
def YEncState.returned (st : YEncState) : ℤ := (Int32.ofNat st.wr).toInt

/-- The loop of `ydecode`. -/
def ydecodeLoop (source : List UInt8) (slen : ℕ) (target : List UInt8) (rd wr : ℕ) :
    Option YEncState :=
  if _h : rd < slen ∧ wr < target.length then
    match source[rd]? with
    | none => none
    | some ch =>
        if ch = yencEscapeChar ∧ rd + 1 < slen then
          match source[rd + 1]? with
          | none => none
          | some ch =>
              ydecodeLoop source slen (target.set wr (ch - yencEscapeBias - yencBias)) (rd + 2)
                (wr + 1)
        else ydecodeLoop source slen (target.set wr (ch - yencBias)) (rd + 1) (wr + 1)
  else some ⟨target, rd, wr⟩
termination_by slen - rd

/-- `ydecode`, where the target has `tlen` bytes. -/
def ydecode (target source : List UInt8) (slen : ℕ) : Option YEncState := do
  ydecodeLoop source (← sourceLength source slen) target 0 0

/-- The loop of `yencode`. -/
def yencodeLoop (source : List UInt8) (slen : ℕ) (target : List UInt8) (rd wr : ℕ) :
    Option YEncState :=
  if _h : rd ≤ slen ∧ wr < target.length then
    match source[rd]? with
    | none => none
    | some c =>
        let ch := c + yencBias
        if isCritical ch then
          -- no room for escaped char
          if target.length ≤ wr + 1 then some ⟨target, rd + 1, wr⟩
          else
            yencodeLoop source slen
              ((target.set wr yencEscapeChar).set (wr + 1) (ch + yencEscapeBias)) (rd + 1) (wr + 2)
        else yencodeLoop source slen (target.set wr ch) (rd + 1) (wr + 1)
  else some ⟨target, rd, wr⟩
termination_by slen + 1 - rd

/-- `yencode` -/
def yencode (target source : List UInt8) (slen : ℕ) : Option YEncState := do
  let st ← yencodeLoop source (← sourceLength source slen) target 0 0
  if st.wr < st.target.length then
    pure { st with target := st.target.set st.wr 0, wr := st.wr + 1 }
  else pure st

/-! ## The text of a source -/

/-- The characters for a byte. -/
def yencChars (c : UInt8) : List UInt8 :=
  if isCritical (c + yencBias) then [yencEscapeChar, c + yencBias + yencEscapeBias]
  else [c + yencBias]

def yencText (s : List UInt8) : List UInt8 := s.flatMap yencChars

variable {source target coded front back s : List UInt8} {slen rd : ℕ} {c : UInt8}

@[simp] theorem yencText_nil : yencText [] = [] := rfl

@[simp] theorem yencText_cons (c : UInt8) (s : List UInt8) :
    yencText (c :: s) = yencChars c ++ yencText s := rfl

theorem length_yencChars (c : UInt8) : 1 ≤ (yencChars c).length ∧ (yencChars c).length ≤ 2 := by
  rw [yencChars]
  split <;> simp

theorem length_yencText (s : List UInt8) :
    s.length ≤ (yencText s).length ∧ (yencText s).length ≤ 2 * s.length := by
  induction s with
  | nil => simp
  | cons c s ih =>
      have hchars := length_yencChars c
      simp only [yencText_cons, List.length_append, List.length_cons]
      omega

/-! ## Encoding -/

/-- A byte of the source is written where there is room. -/
theorem yencodeLoop_step (hget : source[rd]? = some c) (hle : rd ≤ slen)
    (hroom : (yencChars c).length ≤ back.length) :
    yencodeLoop source slen (front ++ back) rd front.length =
      yencodeLoop source slen (front ++ yencChars c ++ back.drop (yencChars c).length) (rd + 1)
        (front ++ yencChars c).length := by
  have hpos := (length_yencChars c).1
  rw [yencodeLoop, dif_pos ⟨hle, by rw [List.length_append]; omega⟩, hget]
  simp only [yencChars] at hroom ⊢
  split
  · next hcritical =>
    rw [if_pos hcritical] at hroom
    have htwo : 2 ≤ back.length := hroom
    obtain ⟨b₁, back, rfl⟩ := List.exists_cons_of_length_pos (Nat.zero_lt_of_lt htwo)
    obtain ⟨b₂, back, rfl⟩ := List.exists_cons_of_length_pos (Nat.le_of_succ_le_succ htwo)
    rw [if_neg (by simp)]
    congr 1
    · simp
    · simp
  · next hplain =>
    rw [if_neg hplain] at hroom
    obtain ⟨b, back, rfl⟩ := List.exists_cons_of_length_pos hroom
    congr 1
    · simp
    · simp

/-- The loop comes to the end of the source. -/
theorem yencodeLoop_text (source : List UInt8) (slen : ℕ) (hslen : slen ≤ source.length)
    (rd : ℕ) (hrd : rd ≤ slen) (front back : List UInt8)
    (hroom : (yencText ((source.take slen).drop rd)).length ≤ back.length) :
    yencodeLoop source slen (front ++ back) rd front.length =
      yencodeLoop source slen (front ++ yencText ((source.take slen).drop rd) ++
          back.drop (yencText ((source.take slen).drop rd)).length) slen
        (front ++ yencText ((source.take slen).drop rd)).length := by
  -- on what is left of the source
  induction hn : slen - rd generalizing rd front back with
  | zero =>
      obtain rfl : rd = slen := by omega
      have hnil : (source.take rd).drop rd = [] := by simp
      simp [hnil]
  | succ n ih =>
      have hlt : rd < slen := by omega
      have hget : source[rd]? = some (source[rd]) := List.getElem?_eq_getElem (by omega)
      have hcons : (source.take slen).drop rd =
          source[rd] :: (source.take slen).drop (rd + 1) := by
        rw [List.drop_eq_getElem_cons (by rw [List.length_take]; omega), List.getElem_take]
      rw [hcons, yencText_cons, List.length_append] at hroom
      have hrest := ih (rd + 1) (by omega) (front ++ yencChars source[rd])
        (back.drop (yencChars source[rd]).length) (by rw [List.length_drop]; omega) (by omega)
      rw [yencodeLoop_step hget hrd (by omega), hrest, hcons, yencText_cons, List.drop_drop,
        List.length_append]
      simp only [List.append_assoc, List.length_append, Nat.add_assoc]

/-- Behind the source one more byte is read if the target has room for it. -/
theorem rd_of_yencodeLoop {wr : ℕ} {st : YEncState} (hwr : wr < target.length)
    (h : yencodeLoop source slen target slen wr = some st) : slen < st.rd := by
  rw [yencodeLoop, dif_pos ⟨le_refl slen, hwr⟩] at h
  have hnext : ∀ {target wr}, yencodeLoop source slen target (slen + 1) wr = some st →
      slen < st.rd := by
    intro target wr h
    rw [yencodeLoop, dif_neg (by omega)] at h
    rw [← Option.some.inj h]
    exact Nat.lt_succ_self slen
  split at h
  · cases h
  · simp only at h
    split at h
    · split at h
      · rw [← Option.some.inj h]
        exact Nat.lt_succ_self slen
      · exact hnext h
    · exact hnext h

/-- With no room to spare the text is all that there is. -/
theorem yencode_full (h : Given source slen s) (hroom : target.length = (yencText s).length) :
    yencode target source slen = some ⟨yencText s, s.length, (yencText s).length⟩ := by
  obtain ⟨n, hn, hslen, rfl⟩ := h
  have htext := yencodeLoop_text source n hn 0 (Nat.zero_le n) [] target (by
    rw [List.drop_zero]
    exact hroom.ge)
  have hlen : (source.take n).length = n := List.length_take_of_le hn
  have hend : yencodeLoop source n (yencText (source.take n)) n (yencText (source.take n)).length =
      some ⟨yencText (source.take n), n, (yencText (source.take n)).length⟩ := by
    rw [yencodeLoop, dif_neg fun h ↦ lt_irrefl _ h.2]
  rw [List.drop_zero, ← hroom, List.drop_length, List.append_nil, List.nil_append,
    List.nil_append, hend, List.length_nil] at htext
  simp only [yencode, hslen, Option.bind_eq_bind, Option.bind_some, htext, hlen]
  rw [if_neg (lt_irrefl _), Option.pure_def]

/-- With room to spare the byte behind the source is read. -/
theorem rd_of_yencode {st : YEncState} (h : Given source slen s)
    (hroom : (yencText s).length < target.length) (hst : yencode target source slen = some st) :
    s.length < st.rd := by
  obtain ⟨n, hn, hslen, rfl⟩ := h
  have htext := yencodeLoop_text source n hn 0 (Nat.zero_le n) [] target (by
    rw [List.drop_zero]
    exact hroom.le)
  rw [List.drop_zero, List.nil_append, List.nil_append, List.length_nil] at htext
  simp only [yencode, hslen, Option.bind_eq_bind, Option.bind_some, htext] at hst
  obtain ⟨st', hst', hpure⟩ := Option.bind_eq_some_iff.mp hst
  have hrd := rd_of_yencodeLoop (by rw [List.length_append, List.length_drop]; omega) hst'
  rw [List.length_take_of_le hn]
  split at hpure
  · rw [← Option.some.inj hpure]
    exact hrd
  · rw [← Option.some.inj hpure]
    exact hrd

/-! ## Decoding -/

/-- The characters for a byte are decoded to it. -/
theorem ydecodeLoop_step {b : UInt8} (h : yencChars c <+: coded.drop rd)
    (hslen : rd + (yencChars c).length ≤ slen) :
    ydecodeLoop coded slen (front ++ b :: back) rd front.length =
      ydecodeLoop coded slen (front ++ c :: back) (rd + (yencChars c).length)
        (front.length + 1) := by
  obtain ⟨rest, hdrop⟩ := h
  have hroom : front.length < (front ++ b :: back).length := by simp
  have hpos := (length_yencChars c).1
  rw [ydecodeLoop, dif_pos ⟨by omega, hroom⟩]
  by_cases hcritical : isCritical (c + yencBias) = true
  · rw [yencChars, if_pos hcritical] at hdrop hslen ⊢
    have hfirst : coded[rd]? = some yencEscapeChar := by
      rw [← List.head?_drop, ← hdrop]
      rfl
    have hsecond : coded[rd + 1]? = some (c + yencBias + yencEscapeBias) := by
      rw [← List.getElem?_drop, ← hdrop]
      rfl
    have hnext : rd + 1 < slen := hslen
    simp [hfirst, hsecond, hnext]
  · rw [yencChars, if_neg hcritical] at hdrop hslen ⊢
    have hfirst : coded[rd]? = some (c + yencBias) := by
      rw [← List.head?_drop, ← hdrop]
      rfl
    have hescape : c + yencBias ≠ yencEscapeChar := by
      intro heq
      exact hcritical (by rw [heq]; rfl)
    simp [hfirst, hescape]

/-- The text of a source is decoded to it. -/
theorem ydecodeLoop_text (s : List UInt8) (rd : ℕ) (front back : List UInt8)
    (h : yencText s <+: coded.drop rd) (hslen : rd + (yencText s).length ≤ slen)
    (hroom : s.length ≤ back.length) :
    ydecodeLoop coded slen (front ++ back) rd front.length =
      ydecodeLoop coded slen (front ++ s ++ back.drop s.length) (rd + (yencText s).length)
        (front.length + s.length) := by
  induction s generalizing rd front back with
  | nil => simp
  | cons c s ih =>
      rw [yencText_cons] at h hslen ⊢
      obtain ⟨b, back, rfl⟩ := List.exists_cons_of_length_pos (Nat.zero_lt_of_lt hroom)
      rw [List.length_append] at hslen
      have hrest : yencText s <+: coded.drop (rd + (yencChars c).length) := by
        obtain ⟨rest, hdrop⟩ := h
        refine ⟨rest, ?_⟩
        rw [← List.drop_drop, ← hdrop, List.append_assoc, List.drop_left]
      have htail := ih (rd + (yencChars c).length) (front ++ [c]) back hrest (by omega)
        (Nat.le_of_succ_le_succ hroom)
      have hlength : front.length + 1 + s.length = front.length + (s.length + 1) := by omega
      rw [ydecodeLoop_step ((List.prefix_append _ _).trans h) (by omega)]
      simpa [Nat.add_assoc, hlength] using htail

/-- The whole text is decoded, and nothing more where the length is right. -/
theorem ydecode_yencText {decoded : List UInt8} (s : List UInt8) (hne : s ≠ [])
    (hroom : s.length ≤ decoded.length) :
    ydecode decoded (yencText s) (yencText s).length =
      some ⟨s ++ decoded.drop s.length, (yencText s).length, s.length⟩ := by
  have hpos : (yencText s).length ≠ 0 := by
    have hlen := List.length_pos_iff.mpr hne
    have hle := (length_yencText s).1
    omega
  have hwhole : yencText s <+: (yencText s).drop 0 := List.prefix_refl _
  have htext := ydecodeLoop_text s 0 [] decoded hwhole (Nat.zero_add _).le hroom
  simp only [List.nil_append, List.length_nil, Nat.zero_add] at htext
  simp only [ydecode, sourceLength, if_neg hpos, Option.bind_eq_bind, Option.bind_some, htext]
  rw [ydecodeLoop, dif_neg fun h ↦ lt_irrefl _ h.1]

/-- With a length that is too large something is read behind the text. -/
theorem ydecode_beyond {decoded : List UInt8} (s : List UInt8)
    (hslen : (yencText s).length < slen) (hroom : s.length < decoded.length) :
    ydecode decoded (yencText s) slen = none := by
  have hwhole : yencText s <+: (yencText s).drop 0 := List.prefix_refl _
  have hroomy : 0 + (yencText s).length ≤ slen := by omega
  have htext := ydecodeLoop_text s 0 [] decoded hwhole hroomy hroom.le
  simp only [List.nil_append, List.length_nil, Nat.zero_add] at htext
  have hpos : slen ≠ 0 := by omega
  simp only [ydecode, sourceLength, if_neg hpos, Option.bind_eq_bind, Option.bind_some, htext]
  have hget : (yencText s)[(yencText s).length]? = none := List.getElem?_eq_none le_rfl
  rw [ydecodeLoop, dif_pos ⟨hslen, by rw [List.length_append, List.length_drop]; omega⟩, hget]

/-! ## Both together -/

/-- An `int` that is one bit too long. -/
theorem toInt_ofNat_neg {n : ℕ} (hlow : 2 ^ 31 ≤ n) (hhigh : n < 2 ^ 32) :
    (Int32.ofNat n).toInt = n - 2 ^ 32 := by
  rw [Int32.toInt_ofNat', Int32.size, Int.bmod_def]
  omega

/-- A source comes back from its text, and nothing behind it is read, exactly when the target has
no room to spare and the length of the text is an `int`. -/
theorem ydecode_yencode_iff (source : List UInt8) (slen : ℕ) (s coded : List UInt8)
    (h : Given source slen s) (hne : s ≠ []) (hroom : (yencText s).length ≤ coded.length) :
    (∃ st, yencode coded source slen = some st ∧ st.rd ≤ s.length ∧
      ∀ decoded : List UInt8, s.length ≤ decoded.length →
        ∃ r, ydecode decoded st.target (sizeT st.returned) = some r ∧ r.returned = s.length ∧
          r.target.take s.length = s) ↔
      coded.length = (yencText s).length ∧ (yencText s).length < 2 ^ 31 := by
  have hlen := length_yencText s
  constructor
  · rintro ⟨st, hst, hrd, hdecode⟩
    have hfull : coded.length = (yencText s).length := by
      by_contra hspare
      have hbeyond := rd_of_yencode h (by omega) hst
      omega
    refine ⟨hfull, ?_⟩
    by_contra hlarge
    rw [yencode_full h hfull] at hst
    obtain rfl := Option.some.inj hst
    -- one byte more than is needed
    obtain ⟨r, hr, hreturned, -⟩ := hdecode (List.replicate (s.length + 1) 0) (by simp)
    have hint := Int32.toInt_lt (Int32.ofNat r.wr)
    rw [YEncState.returned] at hreturned
    have hsize : (yencText s).length < sizeT (YEncState.returned
        ⟨yencText s, s.length, (yencText s).length⟩) := by
      have hneg : (Int32.ofNat (yencText s).length).toInt = (yencText s).length - 2 ^ 32 :=
        toInt_ofNat_neg (by omega) (by omega)
      rw [YEncState.returned, hneg, sizeT]
      omega
    rw [ydecode_beyond s hsize (by simp)] at hr
    cases hr
  · rintro ⟨hfull, hsmall⟩
    refine ⟨_, yencode_full h hfull, le_rfl, ?_⟩
    intro decoded hdecoded
    have hsize : sizeT (YEncState.returned ⟨yencText s, s.length, (yencText s).length⟩) =
        (yencText s).length := by
      rw [YEncState.returned, toInt_ofNat hsmall, sizeT]
      omega
    rw [hsize, ydecode_yencText s hne hdecoded]
    exact ⟨_, rfl, toInt_ofNat (hlen.1.trans_lt hsmall), List.take_left' rfl⟩

/-- The byte 19 is escaped. -/
theorem ydecode_yencode_nineteen :
    (∃ st, yencode [0, 0] [19] 1 = some st ∧ st.rd ≤ 1 ∧
      ∀ decoded : List UInt8, 1 ≤ decoded.length →
        ∃ r, ydecode decoded st.target (sizeT st.returned) = some r ∧ r.returned = (1 : ℕ) ∧
          r.target.take 1 = [19]) ↔
      [0, 0].length = (yencText [19]).length ∧ (yencText [19]).length < 2 ^ 31 :=
  ydecode_yencode_iff [19] 1 [19] [0, 0] ⟨1, le_rfl, rfl, rfl⟩ (by decide) (by decide)

/-- With room to spare the byte behind the source is encoded too. -/
theorem not_ydecode_yencode :
    ¬∃ st, yencode [0, 0, 0, 0] [1, 77] 1 = some st ∧ st.rd ≤ 1 ∧
      ∀ decoded : List UInt8, 1 ≤ decoded.length →
        ∃ r, ydecode decoded st.target (sizeT st.returned) = some r ∧ r.returned = (1 : ℕ) ∧
          r.target.take 1 = [1] := by
  rintro ⟨st, hst, hrd, -⟩
  have hgiven : Given [1, 77] 1 [1] := ⟨1, by decide, rfl, rfl⟩
  exact absurd hrd (Nat.not_le.mpr (rd_of_yencode hgiven (by decide) hst))

end Synchronet.Encode
