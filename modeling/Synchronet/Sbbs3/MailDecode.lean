import Synchronet.Lib.InPlace
import Synchronet.Sbbs3.Ars
import Synchronet.Xpdev.Genwrap

/-!
# Decoding received mail (mailsrvr.c, base64.c)

The lines of a message body are decoded as they come, quoted-printable ones over themselves in
the buffer of the line; the encoded words of a header value are decoded in a buffer of their own
and take their place in the value.  A step that reads or writes where it must not has no result.
-/

namespace Synchronet.Sbbs3.MailSrvr

open Smblib (cstr cstr_append_zero)
open Xpdev

/-! ## Quoted-printable -/

/-- What `qp_decode` copies: a blank, a tab or a printable character but the equals sign. -/
def isText (c : UInt8) : Bool := c = 32 || (33 ≤ c && c ≤ 126 && c ≠ 61) || c = 9

/-- The number that two hexadecimal digits are for `strtoul`. -/
def hexByte (a b : UInt8) : UInt8 := hexCharToInt a * 16 + hexCharToInt b

/-- The loop of `qp_decode` in the buffer `buf`, from `p` to `dest`. -/
def qpDecode (buf : List UInt8) (p dest : ℕ) : Option (List UInt8) :=
  if _h : p < buf.length then
    let c := buf[p]
    if c = 0 then
      if dest + 2 < buf.length then
        some (((buf.set dest 13).set (dest + 1) 10).set (dest + 2) 0)
      else none
    else if isText c then
      if dest < buf.length then qpDecode (buf.set dest c) (p + 1) (dest + 1) else none
    else if c = 61 then
      match buf[p + 1]? with
      | none => none
      | some d =>
          -- soft line break
          if d = 0 then if dest < buf.length then some (buf.set dest 0) else none
          else
            match if isxdigit d then buf[p + 2]? else some 0 with
            | none => none
            | some e =>
                if isxdigit d ∧ isxdigit e then
                  if dest < buf.length then
                    qpDecode (buf.set dest (hexByte d e)) (p + 3) (dest + 1)
                  else none
                else if dest + 1 < buf.length then
                  -- bad encoding
                  qpDecode ((buf.set dest 61).set (dest + 1) d) (p + 2) (dest + 2)
                else none
    else qpDecode buf (p + 1) dest
  else none
termination_by buf.length - p
decreasing_by
  · rw [List.length_set]
    omega
  · rw [List.length_set]
    omega
  · rw [List.length_set, List.length_set]
    omega
  · omega

/-! ## Base64 -/

/-- `base64alphabet`, with the pad at its end. -/
def base64alphabet : Str :=
  (List.range 26).map (fun i ↦ UInt8.ofNat (65 + i)) ++
    (List.range 26).map (fun i ↦ UInt8.ofNat (97 + i)) ++
    (List.range 10).map (fun i ↦ UInt8.ofNat (48 + i)) ++ [43, 47, 61]

/-- What `b64_decode` returns, with its target. -/
inductive B64Result
  | ok (target : List UInt8) (length : ℕ)
  | error (target : List UInt8)

/-- `strchr` in the alphabet finds its end too. -/
def alphabetIndex (c : UInt8) : Option ℕ :=
  if c = 0 then some base64alphabet.length else strchr base64alphabet c

/-- The end of `b64_decode`. -/
def b64Finish (target : List UInt8) (tlen outp : ℕ) : Option B64Result :=
  if outp = tlen then
    if outp = 0 ∨ target.length < outp then none else some (.error (target.set (outp - 1) 0))
  else if outp < target.length then some (.ok (target.set outp 0) outp)
  else none

/-- The loop of `b64_decode`.  The bytes of the source may be those of the target. -/
def b64Loop (source : List UInt8 → List UInt8) (tlen inend : ℕ) (target : List UInt8)
    (inp outp : ℕ) (working : UInt32) (bits : ℕ) : Option B64Result :=
  if _h : outp < tlen ∧ inp < inend then
    match (source target)[inp]? with
    | none => none
    | some c =>
        if Smblib.isspace c then b64Loop source tlen inend target (inp + 1) outp working bits
        else
          let working := working <<< 6
          match alphabetIndex c with
          | none => some (.error target)
          | some i =>
              if base64alphabet[i]? = some 61 then
                if working &&& 0xff ≠ 0 then some (.error target)
                else b64Finish target tlen outp
              else
                let bits := bits + 6
                let working := working ||| UInt32.ofNat i
                if 8 ≤ bits then
                  if outp < target.length then
                    let shift := UInt32.ofNat (bits - 8)
                    b64Loop source tlen inend
                      (target.set outp ((working &&& (0xff <<< shift)) >>> shift).toUInt8)
                      (inp + 1) (outp + 1) working (bits - 8)
                  else none
                else b64Loop source tlen inend target (inp + 1) outp working bits
  else b64Finish target tlen outp
termination_by inend - inp

/-- `b64_decode`: no length of the source is that of its string. -/
def b64Decode (source : List UInt8 → List UInt8) (target : List UInt8) (tlen slen : ℕ) :
    Option B64Result :=
  let slen := if slen = 0 then (cstr (source target)).length else slen
  b64Loop source tlen slen target 0 0 0 0

/-! ## The body of a message -/

inductive ContentEncoding
  | none
  | base64
  | quotedPrintable
  deriving DecidableEq

/-- `"\r\n!Base64 decode error: "` -/
def base64Error : Str :=
  [13, 10, 33, 66, 97, 115, 101, 54, 52, 32, 100, 101, 99, 111, 100, 101, 32, 101, 114, 114, 111,
    114, 58, 32]

/-- `sizeof(buf)` -/
def sizeofBuf : ℕ := 1024

/-- Where a line of the body starts: a dot is taken off. -/
def bodyStart (buf : List UInt8) : ℕ := if buf.head? = some 46 then 1 else 0

/-- A line of the body in `buf`: what goes to the message text.  The buffer for what base64
stands for has what was there before. -/
def dataBody (encoding : ContentEncoding) (buf decodeBuf : List UInt8) : Option (List UInt8) :=
  let p := bodyStart buf
  let line := cstr (buf.drop p)
  match encoding with
  | .base64 =>
      (b64Decode (fun _ ↦ buf.drop p) decodeBuf decodeBuf.length line.length).map fun
        | .error _ => base64Error ++ line ++ [13, 10]
        | .ok target _ => cstr target
  | .quotedPrintable => (qpDecode buf p p).map fun buf ↦ cstr (buf.drop p)
  | .none => some (line ++ [13, 10])

/-! ## Header values -/

/-- What is read of a string that ends at `n`. -/
def readTo (n : ℕ) (buf : List UInt8) (i : ℕ) : Option UInt8 := if i ≤ n then buf[i]? else none

/-- `mimehdr_q_decode` in the buffer `buf`, whose string ends at `n`. -/
def qDecode (n : ℕ) (buf : List UInt8) (p dest : ℕ) : Option (List UInt8) :=
  if _h : p ≤ n then
    match buf[p]? with
    | none => none
    | some c =>
        if c = 0 then if dest < buf.length then some (buf.set dest 0) else none
        else if c = 61 then
          match readTo n buf (p + 1) with
          | none => none
          | some d =>
              match if isxdigit d then readTo n buf (p + 2) else some 0 with
              | none => none
              | some e =>
                  if isxdigit d ∧ isxdigit e then
                    let ch := hexCharToInt d <<< 4 ||| hexCharToInt e
                    if 32 ≤ ch then
                      if dest < buf.length then qDecode n (buf.set dest ch) (p + 3) (dest + 1)
                      else none
                    else qDecode n buf (p + 3) dest
                  else if dest + 1 < buf.length then
                    -- bad encoding
                    qDecode n ((buf.set dest 61).set (dest + 1) d) (p + 2) (dest + 2)
                  else none
        else if c = 95 then
          if dest < buf.length then qDecode n (buf.set dest 32) (p + 1) (dest + 1) else none
        else if 33 ≤ c ∧ c ≤ 126 then
          if dest < buf.length then qDecode n (buf.set dest c) (p + 1) (dest + 1) else none
        else qDecode n buf (p + 1) dest
  else none
termination_by n + 1 - p

/-- `sizeof(tmp)` -/
def sizeofTmp : ℕ := 256

/-- What has the form of an encoded word. -/
def isEncodedWord (word : Str) : Bool :=
  word.head? = some 61 && word[1]? = some 63 && word[word.length - 2]? = some 63 &&
    word.getLast? = some 61 && word.length - 1 < sizeofTmp

/-- The encoding of an encoded word and what is behind it, "?=" included. -/
def encodedText (word : Str) : Option (UInt8 × Str) :=
  match (word.drop 2).dropWhile (· ≠ 63) with
  | 63 :: encoding :: 63 :: text => some (toupper encoding, text)
  | _ => none

/-- `SAFECOPY` of a text to `tmp`. -/
def tmpOf (text : Str) : List UInt8 :=
  text.take (sizeofTmp - 1) ++ List.replicate (sizeofTmp - (text.take (sizeofTmp - 1)).length) 0

/-- The encoded word without its `?=` in `tmp` is decoded. -/
def decodeTmp (encoding : UInt8) (word : Str) (tmp : List UInt8) : Option Str :=
  let length := (cstr tmp).length
  if encoding = 81 then (qDecode length tmp 0 0).map cstr
  else if encoding = 66 then
    (b64Decode id tmp tmp.length length).map fun
      | .ok tmp length => if 0 < length then cstr tmp else word
      | .error _ => word
  else some word

/-- What takes the place of an encoded word. -/
def decodeWord (word : Str) : Option Str :=
  match encodedText word with
  | none => some word
  | some (encoding, text) =>
      -- the last character of an empty string is its first
      let last := (text.take (sizeofTmp - 1)).length - 1
      if last = 0 then none
      else decodeTmp encoding word ((tmpOf text).set (last - 1) 0)

/-- `strcat` to a value with room for `size` bytes. -/
def strcat (size : ℕ) (str s : Str) : Option Str :=
  if str.length + s.length < size then some (str ++ s) else none

/-- A blank for the value before a word. -/
def addBlank (size : ℕ) (str : Str) (needed : Bool) : Option Str :=
  if needed then strcat size str [32] else some str

/-- A word of the value: the value so far, and whether the word before was an encoded one. -/
def addWord (size : ℕ) (str : Str) (encodedBefore : Bool) (word : Str) : Option (Str × Bool) :=
  if isEncodedWord word then do
    let str ← addBlank size str (str ≠ [] && !encodedBefore)
    let str ← strcat size str (← decodeWord word)
    pure (str, true)
  else do
    let str ← addBlank size str (str ≠ [])
    let str ← strcat size str word
    pure (str, false)

/-- The words that `strtok_r` finds between blanks and tabs. -/
def words (value : Str) : List Str := (value.splitOnP fun c ↦ c = 32 || c = 9).filter (· ≠ [])

/-- `mimehdr_value_decode` up to the attributes of the message: the value, which had room for
itself. -/
def mimehdrValueDecode (value : Str) : Option Str :=
  ((words value).foldlM (fun (s : Str × Bool) word ↦ addWord (value.length + 1) s.1 s.2 word)
    ([], false)).map Prod.fst

/-! ## Quoted-printable text -/

/-- The number of characters that a quoted-printable text keeps: the equals sign of a bad
encoding and what is behind it stay. -/
def qpLength : Str → ℕ
  | [] => 0
  | c :: s =>
      if isText c then qpLength s + 1
      else if c ≠ 61 then qpLength s
      else
        match s with
        | [] => 0
        | [_] => 2
        | d :: e :: s =>
            if isxdigit d ∧ isxdigit e then qpLength s + 1 else qpLength (e :: s) + 2

/-- The equals sign of an encoding is the last character of the text. -/
def endsOpen : Str → Bool
  | [] => false
  | c :: s =>
      if c ≠ 61 then endsOpen s
      else
        match s with
        | [] => true
        | [_] => false
        | d :: e :: s => if isxdigit d ∧ isxdigit e then endsOpen s else endsOpen (e :: s)

theorem isText_equals : isText 61 = false := rfl

theorem endsOpen_cons {c : UInt8} (hc : c ≠ 61) (s : Str) : endsOpen (c :: s) = endsOpen s := by
  rw [endsOpen.eq_def]
  simp [hc]

theorem qpLength_cons {c : UInt8} (hc : c ≠ 61) (s : Str) :
    qpLength (c :: s) = if isText c then qpLength s + 1 else qpLength s := by
  rw [qpLength.eq_def]
  simp [hc]

section Quoted

variable {buf : List UInt8} {p dest : ℕ} {c d e : UInt8} {rest : List UInt8}

theorem qpDecode_end (h : buf.drop p = 0 :: rest) :
    (qpDecode buf p dest).isSome ↔ dest + 2 < buf.length := by
  have hlt := InPlace.lt_length_of_drop h
  rw [qpDecode, dif_pos hlt]
  simp only [InPlace.getElem_of_drop h hlt, if_true]
  split <;> simp_all

theorem qpDecode_char (h : buf.drop p = c :: rest) (h0 : c ≠ 0) (hc : c ≠ 61) (hdest : dest ≤ p) :
    qpDecode buf p dest =
      if isText c then qpDecode (buf.set dest c) (p + 1) (dest + 1)
      else qpDecode buf (p + 1) dest := by
  have hlt := InPlace.lt_length_of_drop h
  have hd : dest < buf.length := by omega
  rw [qpDecode, dif_pos hlt]
  simp only [InPlace.getElem_of_drop h hlt, if_neg h0, if_neg hc, if_pos hd]

theorem qpDecode_soft (h : buf.drop p = 61 :: 0 :: rest) (hdest : dest ≤ p) :
    (qpDecode buf p dest).isSome := by
  have hlt := InPlace.lt_length_of_drop h
  have hd : dest < buf.length := by omega
  have hnext := InPlace.getElem?_of_drop (InPlace.drop_succ_of_drop h)
  rw [qpDecode, dif_pos hlt]
  simp [InPlace.getElem_of_drop h hlt, isText_equals, hnext, hd]

theorem qpDecode_escape (h : buf.drop p = 61 :: d :: e :: rest) (h0 : d ≠ 0) (hdest : dest ≤ p) :
    qpDecode buf p dest =
      if isxdigit d ∧ isxdigit e then qpDecode (buf.set dest (hexByte d e)) (p + 3) (dest + 1)
      else qpDecode ((buf.set dest 61).set (dest + 1) d) (p + 2) (dest + 2) := by
  have hlt := InPlace.lt_length_of_drop h
  have h₁ := InPlace.drop_succ_of_drop h
  have hlt₁ := InPlace.lt_length_of_drop h₁
  have hnext := InPlace.getElem?_of_drop h₁
  have hlast := InPlace.getElem?_of_drop (InPlace.drop_succ_of_drop h₁)
  have hd : dest < buf.length := by omega
  have hd₁ : dest + 1 < buf.length := by omega
  rw [qpDecode, dif_pos hlt]
  simp only [InPlace.getElem_of_drop h hlt, isText_equals, hnext, hlast, if_neg h0, hd, hd₁,
    if_true]
  by_cases hx : isxdigit d = true <;> simp [hx]

/-- A line is decoded in its buffer unless it keeps too many characters: the end of a line takes
two bytes of the buffer, and the terminator one. -/
theorem qpDecode_isSome (s : Str) (h : buf.drop p = s ++ 0 :: rest) (h0 : 0 ∉ s)
    (hdest : dest ≤ p) :
    (qpDecode buf p dest).isSome ↔ endsOpen s ∨ dest + qpLength s + 2 < buf.length := by
  induction s using endsOpen.induct generalizing buf p dest with
  | case1 => simpa [endsOpen, qpLength] using qpDecode_end h
  | case2 c s hc ih =>
      have hset := InPlace.drop_succ_set h hdest c
      have hc0 : c ≠ 0 := fun hc0 ↦ h0 (hc0 ▸ List.mem_cons_self)
      have hs0 : 0 ∉ s := fun hs0 ↦ h0 (List.mem_cons_of_mem _ hs0)
      rw [qpDecode_char h hc0 hc hdest, endsOpen_cons hc, qpLength_cons hc]
      split
      · rw [ih hset hs0 (by omega), List.length_set]
        simp only [Nat.add_assoc, Nat.add_comm, Nat.add_left_comm]
      · exact ih (InPlace.drop_succ_of_drop h) hs0 (by omega)
  | case3 c hc =>
      obtain rfl : c = 61 := not_not.mp hc
      simpa [endsOpen] using qpDecode_soft h hdest
  | case4 c hc d =>
      obtain rfl : c = 61 := not_not.mp hc
      have hd0 : d ≠ 0 := by
        rintro rfl
        simp at h0
      have hx : ¬(isxdigit d = true ∧ isxdigit 0 = true) := fun hx ↦ nomatch hx.2
      have hset := InPlace.drop_succ_set h hdest 61
      have hset' := InPlace.drop_succ_set hset (by omega : dest + 1 ≤ p + 1) d
      rw [qpDecode_escape h hd0 hdest, if_neg hx, qpDecode_end hset']
      simp [endsOpen, qpLength, isText_equals]
  | case5 c hc d e s hx ih =>
      obtain rfl : c = 61 := not_not.mp hc
      have hset := InPlace.drop_succ_set h hdest (hexByte d e)
      have hset' := InPlace.drop_succ_of_drop (InPlace.drop_succ_of_drop hset)
      have hd0 : d ≠ 0 := by
        rintro rfl
        simp at h0
      have hs0 : 0 ∉ s := fun hs0 ↦ h0 (by simp [hs0])
      rw [qpDecode_escape h hd0 hdest, if_pos hx, ih hset' hs0 (by omega), List.length_set]
      simp [endsOpen, qpLength, isText_equals, hx, Nat.add_assoc, Nat.add_comm, Nat.add_left_comm]
  | case6 c hc d e s hx ih =>
      obtain rfl : c = 61 := not_not.mp hc
      have hset := InPlace.drop_succ_set h hdest 61
      have hset' := InPlace.drop_succ_set hset (by omega : dest + 1 ≤ p + 1) d
      have hd0 : d ≠ 0 := by
        rintro rfl
        simp at h0
      have hs0 : 0 ∉ e :: s := fun hs0 ↦ h0 (by simp_all)
      rw [qpDecode_escape h hd0 hdest, if_neg hx, ih hset' hs0 (by omega), List.length_set,
        List.length_set]
      simp [endsOpen, qpLength, isText_equals, hx, Nat.add_assoc, Nat.add_comm, Nat.add_left_comm]

end Quoted

/-! ## Base64 text -/

section Base64

variable {source : List UInt8 → List UInt8} {tlen inend : ℕ}

/-- A result whose string ends within the first bytes of the target. -/
def B64Result.Within (n : ℕ) : B64Result → Prop
  | .ok target length => length ≤ n ∧ target[length]? = some 0
  | .error _ => True

theorem b64Finish_within {target : List UInt8} {outp : ℕ} (htarget : target.length = tlen)
    (hinend : inend < tlen) (hout : outp ≤ inend) :
    ∃ r, b64Finish target tlen outp = some r ∧ r.Within inend := by
  refine ⟨.ok (target.set outp 0) outp, ?_, hout, List.getElem?_set_self (by omega)⟩
  rw [b64Finish, if_neg (by omega), if_pos (by omega)]

/-- What is decoded is never longer than what was read. -/
theorem b64Loop_within (hsource : ∀ t, t.length = tlen → inend ≤ (source t).length)
    (hinend : inend < tlen) (target : List UInt8) (inp outp : ℕ) (working : UInt32) (bits : ℕ)
    (htarget : target.length = tlen) (hout : outp ≤ inp) (hinp : inp ≤ inend) :
    ∃ r, b64Loop source tlen inend target inp outp working bits = some r ∧ r.Within inend := by
  fun_induction b64Loop source tlen inend target inp outp working bits with
  | case1 target inp outp working bits hlt hnone =>
      have hread := hsource target htarget
      rw [List.getElem?_eq_none_iff] at hnone
      omega
  | case2 target inp outp working bits hlt c hc hspace ih =>
      exact ih htarget (by omega) hlt.2
  | case3 | case4 => exact ⟨_, rfl, trivial⟩
  | case5 => exact b64Finish_within htarget hinend (by omega)
  | case6 target inp outp working bits hlt =>
      rename_i ih
      exact ih (by rw [List.length_set, htarget]) (by omega) hlt.2
  | case7 => omega
  | case8 target inp outp working bits hlt =>
      rename_i ih
      exact ih htarget (by omega) hlt.2
  | case9 => exact b64Finish_within htarget hinend (by omega)

/-- `slen` bytes of a source of a string are decoded. -/
theorem b64Decode_within (source : List UInt8 → List UInt8) {target : List UInt8} {slen : ℕ}
    (hsource : ∀ t, t.length = target.length → slen ≤ (source t).length)
    (hslen : slen = (cstr (source target)).length) (hlt : slen < target.length) :
    ∃ r, b64Decode source target target.length slen = some r ∧ r.Within slen := by
  have heq : (if slen = 0 then (cstr (source target)).length else slen) = slen := by
    rw [← hslen, ite_self]
  rw [b64Decode, heq]
  exact b64Loop_within hsource hlt target 0 0 0 0 rfl (le_refl 0) (Nat.zero_le slen)

end Base64

/-! ## Encoded words -/

section Encoded

variable {buf : List UInt8} {n p dest : ℕ} {c d e : UInt8} {rest : List UInt8}

theorem readTo_of_drop (h : buf.drop p = c :: rest) (hp : p ≤ n) : readTo n buf p = some c := by
  rw [readTo, if_pos hp, InPlace.getElem?_of_drop h]

/-- The buffer holds a string that ends at a position up to `n`. -/
def EndsWithin (n : ℕ) (buf : List UInt8) : Prop := ∃ k ≤ n, buf[k]? = some 0

theorem qDecode_end (h : buf.drop n = 0 :: rest) (hdest : dest ≤ n) :
    ∃ buf', qDecode n buf n dest = some buf' ∧ EndsWithin n buf' := by
  have hlt := InPlace.lt_length_of_drop h
  have hd : dest < buf.length := by omega
  refine ⟨buf.set dest 0, ?_, dest, hdest, List.getElem?_set_self hd⟩
  rw [qDecode, dif_pos (le_refl n), InPlace.getElem?_of_drop h]
  simp [hd]

theorem qDecode_char (h : buf.drop p = c :: rest) (h0 : c ≠ 0) (hc : c ≠ 61) (hdest : dest ≤ p)
    (hp : p ≤ n) :
    (∃ x, qDecode n buf p dest = qDecode n (buf.set dest x) (p + 1) (dest + 1)) ∨
      qDecode n buf p dest = qDecode n buf (p + 1) dest := by
  have hlt := InPlace.lt_length_of_drop h
  have hd : dest < buf.length := by omega
  rw [qDecode, dif_pos hp, InPlace.getElem?_of_drop h]
  simp only [if_neg h0, if_neg hc, if_pos hd]
  split
  · exact .inl ⟨32, rfl⟩
  · split
    · exact .inl ⟨c, rfl⟩
    · exact .inr rfl

/-- The equals sign is followed by the terminator: what is behind is read. -/
theorem qDecode_open (h : buf.drop p = 61 :: 0 :: rest) : qDecode (p + 1) buf p dest = none := by
  have hnext := readTo_of_drop (InPlace.drop_succ_of_drop h) (le_refl (p + 1))
  have hx : isxdigit 0 = false := rfl
  have hover (buf : List UInt8) (dest : ℕ) : qDecode (p + 1) buf (p + 2) dest = none := by
    rw [qDecode, dif_neg (by omega)]
  rw [qDecode, dif_pos (Nat.le_succ p), InPlace.getElem?_of_drop h]
  simp [hnext, hx, hover]

theorem qDecode_escape (h : buf.drop p = 61 :: d :: e :: rest) (hdest : dest ≤ p)
    (hp : p + 2 ≤ n) :
    if isxdigit d ∧ isxdigit e then
      (∃ x, qDecode n buf p dest = qDecode n (buf.set dest x) (p + 3) (dest + 1)) ∨
        qDecode n buf p dest = qDecode n buf (p + 3) dest
    else
      qDecode n buf p dest =
        qDecode n ((buf.set dest 61).set (dest + 1) d) (p + 2) (dest + 2) := by
  have h₁ := InPlace.drop_succ_of_drop h
  have hlt := InPlace.lt_length_of_drop h
  have hlt₁ := InPlace.lt_length_of_drop h₁
  have hnext := readTo_of_drop h₁ (by omega : p + 1 ≤ n)
  have hlast := readTo_of_drop (InPlace.drop_succ_of_drop h₁) hp
  have hd : dest < buf.length := by omega
  have hd₁ : dest + 1 < buf.length := by omega
  rw [qDecode, dif_pos (by omega), InPlace.getElem?_of_drop h]
  by_cases hx : isxdigit d = true
  · by_cases hy : isxdigit e = true
    · simp only [hnext, hlast, hx, hy, hd, and_self, if_true]
      rw [if_neg (by decide)]
      split
      · exact .inl ⟨_, rfl⟩
      · exact .inr rfl
    · simp [hnext, hlast, hx, hy, hd₁]
  · simp [hnext, hx, hd₁]

/-- What `mimehdr_q_decode` does with a string: all of it, or it runs past its terminator. -/
def QDecoded (n : ℕ) (s : Str) (result : Option (List UInt8)) : Prop :=
  if endsOpen s then result = none else ∃ buf', result = some buf' ∧ EndsWithin n buf'

theorem qDecode_string (s : Str) (h : buf.drop p = s ++ 0 :: rest) (h0 : 0 ∉ s)
    (hn : n = p + s.length) (hdest : dest ≤ p) : QDecoded n s (qDecode n buf p dest) := by
  induction s using endsOpen.induct generalizing buf p dest with
  | case1 =>
      obtain rfl : n = p := hn
      exact qDecode_end h hdest
  | case2 c s hc ih =>
      have hc0 : c ≠ 0 := fun hc0 ↦ h0 (hc0 ▸ List.mem_cons_self)
      have hs0 : 0 ∉ s := fun hs0 ↦ h0 (List.mem_cons_of_mem _ hs0)
      have hn' : n = p + 1 + s.length := by
        rw [hn, List.length_cons]
        omega
      rw [QDecoded, endsOpen_cons hc]
      rcases qDecode_char (n := n) h hc0 hc hdest (by omega) with ⟨x, hx⟩ | hx
      · rw [hx]
        exact ih (InPlace.drop_succ_set h hdest x) hs0 hn' (by omega)
      · rw [hx]
        exact ih (InPlace.drop_succ_of_drop h) hs0 hn' (by omega)
  | case3 c hc =>
      obtain rfl : c = 61 := not_not.mp hc
      obtain rfl : n = p + 1 := hn
      exact qDecode_open h
  | case4 c hc d =>
      obtain rfl : c = 61 := not_not.mp hc
      obtain rfl : n = p + 2 := hn
      have hset := InPlace.drop_succ_set h hdest 61
      have hset' := InPlace.drop_succ_set hset (by omega : dest + 1 ≤ p + 1) d
      have hescape := qDecode_escape h hdest (le_refl (p + 2))
      rw [if_neg fun hx ↦ nomatch hx.2] at hescape
      rw [hescape]
      exact qDecode_end hset' (by omega)
  | case5 c hc d e s hx ih =>
      obtain rfl : c = 61 := not_not.mp hc
      have hn' : n = p + 3 + s.length := by
        simp only [hn, List.length_cons]
        omega
      have hs0 : 0 ∉ s := fun hs0 ↦ h0 (by simp [hs0])
      have hends : endsOpen (61 :: d :: e :: s) = endsOpen s := by simp [endsOpen, hx]
      have hescape := qDecode_escape h hdest (by omega : p + 2 ≤ n)
      rw [if_pos hx] at hescape
      rw [QDecoded, hends]
      rcases hescape with ⟨x, hescape⟩ | hescape
      · rw [hescape]
        have hset := InPlace.drop_succ_set h hdest x
        exact ih (InPlace.drop_succ_of_drop (InPlace.drop_succ_of_drop hset)) hs0 hn' (by omega)
      · rw [hescape]
        have hrest := InPlace.drop_succ_of_drop h
        exact ih (InPlace.drop_succ_of_drop (InPlace.drop_succ_of_drop hrest)) hs0 hn' (by omega)
  | case6 c hc d e s hx ih =>
      obtain rfl : c = 61 := not_not.mp hc
      have hn' : n = p + 2 + (e :: s).length := by
        simp only [hn, List.length_cons]
        omega
      have hs0 : 0 ∉ e :: s := fun hs0 ↦ h0 (by simp_all)
      have hends : endsOpen (61 :: d :: e :: s) = endsOpen (e :: s) := by simp [endsOpen, hx]
      have hset := InPlace.drop_succ_set h hdest 61
      have hset' := InPlace.drop_succ_set hset (by omega : dest + 1 ≤ p + 1) d
      have hescape := qDecode_escape h hdest (by omega : p + 2 ≤ n)
      rw [if_neg hx] at hescape
      rw [hescape, QDecoded, hends]
      exact ih hset' hs0 hn' (by omega)

end Encoded

theorem length_cstr_le {buf : List UInt8} {n : ℕ} (h : EndsWithin n buf) :
    (cstr buf).length ≤ n := by
  obtain ⟨k, hk, hget⟩ := h
  refine le_trans ?_ hk
  by_contra hle
  have hlt : k < (buf.takeWhile (· ≠ 0)).length := not_le.mp hle
  have hmem : buf[k]? = (cstr buf)[k]? := by
    conv_lhs => rw [← List.takeWhile_append_dropWhile (p := (· ≠ 0)) (l := buf)]
    exact List.getElem?_append_left hlt
  have hzero : (0 : UInt8) ∈ cstr buf := List.mem_of_getElem? (hmem.symm.trans hget)
  simpa using List.mem_takeWhile_imp hzero

/-- The text behind the encoding of a word can be decoded: there is something before its `?=`,
and a Q encoding in it is not cut off. -/
def textInBounds (encoding : UInt8) (text : Str) : Bool :=
  2 ≤ text.length && !(encoding = 81 && endsOpen (text.take (text.length - 2)))

/-- A word of a header value can be decoded. -/
def wordInBounds (word : Str) : Bool :=
  !isEncodedWord word ||
    match encodedText word with
    | none => true
    | some (encoding, text) => textInBounds encoding text

theorem encodedText_length {word text : Str} {encoding : UInt8}
    (h : encodedText word = some (encoding, text)) :
    text.length + 3 ≤ word.length ∧ text ⊆ word := by
  have hsuffix :=
    (List.dropWhile_suffix (l := word.drop 2) (· ≠ 63)).trans (List.drop_suffix 2 word)
  rw [encodedText] at h
  split at h
  case h_1 e text' heq =>
    rw [heq] at hsuffix
    obtain ⟨-, rfl⟩ : toupper e = encoding ∧ text' = text := by simpa using h
    have hlength := hsuffix.length_le
    simp only [List.length_cons] at hlength
    exact ⟨hlength, fun c hc ↦ hsuffix.subset (by simp [hc])⟩
  case h_2 => exact nomatch h

/-- The text without its last two characters, and what is behind. -/
theorem tmpOf_set {text : Str} (h2 : 2 ≤ text.length) (hlt : text.length < sizeofTmp) :
    ∃ rest, (tmpOf text).set (text.length - 2) 0 = text.take (text.length - 2) ++ 0 :: rest := by
  have hlen : text.length - 2 < (tmpOf text).length := by
    simp only [tmpOf, List.length_append, List.length_take, List.length_replicate]
    omega
  have htake : (tmpOf text).take (text.length - 2) = text.take (text.length - 2) := by
    rw [tmpOf, List.take_append_of_le_length (by simp only [List.length_take]; omega),
      List.take_take, Nat.min_eq_left (by omega)]
  exact ⟨_, by rw [List.set_eq_take_cons_drop _ hlen, htake]⟩

theorem length_tmpOf {text : Str} (h : text.length < sizeofTmp) :
    (tmpOf text).length = sizeofTmp := by
  simp only [tmpOf, List.length_append, List.length_take, List.length_replicate]
  omega

theorem isEncodedWord_length {word : Str} (h : isEncodedWord word) : word.length ≤ sizeofTmp := by
  simp only [isEncodedWord, Bool.and_eq_true, decide_eq_true_eq] at h
  omega

/-- A Q encoding that is cut off is read past its end; nothing else goes wrong, and there are no
more characters afterwards. -/
theorem decodeTmp_string (encoding : UInt8) {word s : Str} {tmp rest : List UInt8} (h0 : 0 ∉ s)
    (htmp : tmp = s ++ 0 :: rest) (hword : s.length ≤ word.length) :
    if encoding = 81 ∧ endsOpen s then decodeTmp encoding word tmp = none
    else ∃ t, decodeTmp encoding word tmp = some t ∧ t.length ≤ word.length := by
  have hs : cstr tmp = s := by rw [htmp, cstr_append_zero h0]
  rw [decodeTmp, hs]
  by_cases hq : encoding = 81
  · have hdecoded : QDecoded s.length s (qDecode s.length tmp 0 0) :=
      qDecode_string s htmp h0 (Nat.zero_add _).symm (le_refl 0)
    simp only [hq, true_and, if_true]
    by_cases hopen : endsOpen s = true
    · rw [QDecoded, if_pos hopen] at hdecoded
      rw [if_pos hopen, hdecoded]
      rfl
    · rw [QDecoded, if_neg hopen] at hdecoded
      obtain ⟨buf', heq, hends⟩ := hdecoded
      rw [if_neg hopen, heq]
      exact ⟨cstr buf', rfl, (length_cstr_le hends).trans hword⟩
  · simp only [hq, false_and, if_false]
    split
    · have hlt : s.length < tmp.length := by simp [htmp]
      obtain ⟨r, heq, hwithin⟩ := b64Decode_within id
        (fun t ht ↦ by simp [ht, hlt.le]) (by rw [id, hs]) hlt
      rw [heq]
      cases r with
      | error target => exact ⟨word, rfl, le_refl _⟩
      | ok target length =>
          refine ⟨_, rfl, ?_⟩
          dsimp only
          split
          · exact (length_cstr_le ⟨length, hwithin⟩).trans hword
          · exact le_refl _
    · exact ⟨word, rfl, le_refl _⟩

/-- A word that can be decoded gets no longer. -/
theorem decodeWord_string {word : Str} (h0 : 0 ∉ word) (hword : isEncodedWord word) :
    if wordInBounds word then ∃ s, decodeWord word = some s ∧ s.length ≤ word.length
    else decodeWord word = none := by
  cases htext : encodedText word with
  | none => simp [wordInBounds, hword, htext, decodeWord]
  | some found =>
      obtain ⟨encoding, text⟩ := found
      obtain ⟨hlength, hsubset⟩ := encodedText_length htext
      have hsize := isEncodedWord_length hword
      have hbounds : wordInBounds word = textInBounds encoding text := by
        simp [wordInBounds, hword, htext]
      have htake : text.take (sizeofTmp - 1) = text := List.take_of_length_le (by omega)
      rw [hbounds, textInBounds, decodeWord, htext]
      simp only [htake]
      by_cases h2 : 2 ≤ text.length
      · obtain ⟨rest, hset⟩ := tmpOf_set h2 (by omega)
        have hcut : (text.take (text.length - 2)).length ≤ word.length := by
          rw [List.length_take]
          omega
        have hcut0 : 0 ∉ text.take (text.length - 2) :=
          fun h ↦ h0 (hsubset (List.mem_of_mem_take h))
        have hdecoded := decodeTmp_string encoding hcut0 hset hcut
        rw [if_neg (by omega : ¬text.length - 1 = 0), Nat.sub_sub]
        split at hdecoded
        · next hopen => simpa [h2, hopen] using hdecoded
        · next hopen =>
          rw [if_pos (by simpa [h2, imp_iff_not_or] using hopen)]
          exact hdecoded
      · rw [if_pos (by omega : text.length - 1 = 0)]
        simp [h2]

/-! ## Values -/

/-- The room that the words still to come may take with a blank before each. -/
def roomOf (words : List Str) : ℕ := (words.map fun word ↦ word.length + 1).sum

/-- The value so far leaves room for the words to come, in `size` bytes. -/
def Fits (size : ℕ) (str : Str) (words : List Str) : Prop :=
  (if str = [] then 0 else str.length + 1) + roomOf words ≤ size

theorem strcat_eq {size : ℕ} {str s : Str} (h : str.length + s.length < size) :
    strcat size str s = some (str ++ s) := if_pos h

/-- Before a word that still fits, so does its blank. -/
theorem blank_fits {size : ℕ} {str word : Str} {words : List Str} {c : Bool}
    (hfits : Fits size str (word :: words)) (hne : word ≠ []) (hc : c → str ≠ []) :
    ∃ str', addBlank size str c = some str' ∧
      str'.length + word.length + 1 + roomOf words ≤ size := by
  have hpos := List.length_pos_iff.mpr hne
  simp only [Fits, roomOf, List.map_cons, List.sum_cons] at hfits
  rw [← roomOf] at hfits
  rw [addBlank]
  by_cases h : c = true
  · rw [if_neg (hc h)] at hfits
    refine ⟨str ++ [32], ?_, ?_⟩
    · rw [if_pos h, strcat_eq (by simp only [List.length_singleton]; omega)]
    · rw [List.length_append, List.length_singleton]
      omega
  · refine ⟨str, if_neg h, ?_⟩
    split at hfits
    · next hstr =>
      rw [hstr, List.length_nil]
      omega
    · omega

/-- What is no longer than the word takes its place. -/
theorem strcat_fits {size : ℕ} {str word s : Str} {words : List Str}
    (hroom : str.length + word.length + 1 + roomOf words ≤ size) (hs : s.length ≤ word.length) :
    strcat size str s = some (str ++ s) ∧ Fits size (str ++ s) words := by
  refine ⟨strcat_eq (by omega), ?_⟩
  rw [Fits, List.length_append]
  split <;> omega

/-- A word takes its place in the value, unless it cannot be decoded. -/
theorem addWord_fits {size : ℕ} {str word : Str} {words : List Str} (encodedBefore : Bool)
    (hfits : Fits size str (word :: words)) (h0 : 0 ∉ word) (hne : word ≠ []) :
    if wordInBounds word then
      ∃ next, addWord size str encodedBefore word = some next ∧ Fits size next.1 words
    else addWord size str encodedBefore word = none := by
  by_cases henc : isEncodedWord word = true
  · have hdecode := decodeWord_string h0 henc
    obtain ⟨str', heq, hroom⟩ :=
      blank_fits (c := str ≠ [] && !encodedBefore) hfits hne (by simp +contextual)
    rw [addWord, if_pos henc, heq]
    split at hdecode
    · next hb =>
      obtain ⟨s, hs, hle⟩ := hdecode
      obtain ⟨hcat, hnext⟩ := strcat_fits hroom hle
      rw [if_pos hb]
      exact ⟨(str' ++ s, true), by simp [hs, hcat], hnext⟩
    · next hb =>
      rw [if_neg hb]
      simp [hdecode]
  · obtain ⟨str', heq, hroom⟩ := blank_fits (c := str ≠ []) hfits hne (by simp)
    obtain ⟨hcat, hnext⟩ := strcat_fits hroom (le_refl _)
    have hb : wordInBounds word = true := by simp [wordInBounds, henc]
    rw [addWord, if_neg henc, heq, if_pos hb]
    exact ⟨(str' ++ word, false), by simp [hcat], hnext⟩

theorem foldlM_addWord {size : ℕ} (words : List Str) (s : Str × Bool)
    (hfits : Fits size s.1 words) (h0 : ∀ word ∈ words, 0 ∉ word)
    (hne : ∀ word ∈ words, word ≠ []) :
    (words.foldlM (fun (s : Str × Bool) word ↦ addWord size s.1 s.2 word) s).isSome ↔
      ∀ word ∈ words, wordInBounds word := by
  induction words generalizing s with
  | nil => simp
  | cons word words ih =>
      have hword := addWord_fits s.2 hfits (h0 word (by simp)) (hne word (by simp))
      rw [List.foldlM_cons]
      split at hword
      · next hb =>
        obtain ⟨next, heq, hnext⟩ := hword
        rw [heq, Option.bind_eq_bind, Option.bind_some,
          ih next hnext (fun w hw ↦ h0 w (by simp [hw])) (fun w hw ↦ hne w (by simp [hw]))]
        simp [hb]
      · next hb => simp [hword, hb]

theorem roomOf_splitOnP (p : UInt8 → Bool) (value : Str) :
    roomOf (value.splitOnP p) = value.length + 1 := by
  induction value with
  | nil => rfl
  | cons c value ih =>
      rw [List.splitOnP_cons_eq_if_modifyHead]
      split
      · simp [roomOf] at ih ⊢
        omega
      · have hne := List.splitOnP_ne_nil p value
        cases hsplit : value.splitOnP p with
        | nil => exact absurd hsplit hne
        | cons first rest =>
            simp [hsplit, roomOf] at ih ⊢
            omega

theorem roomOf_filter (p : Str → Bool) (words : List Str) :
    roomOf (words.filter p) ≤ roomOf words := by
  induction words with
  | nil => exact le_refl _
  | cons word words ih =>
      rw [List.filter_cons]
      split
      · simpa [roomOf] using ih
      · simp only [roomOf, List.map_cons, List.sum_cons] at ih ⊢
        omega

theorem mem_of_mem_splitOnP {p : UInt8 → Bool} {value word : Str}
    (h : word ∈ value.splitOnP p) {c : UInt8} (hc : c ∈ word) : c ∈ value := by
  induction value generalizing word with
  | nil => simp_all
  | cons d value ih =>
      rw [List.splitOnP_cons_eq_if_modifyHead] at h
      split at h
      · rcases List.mem_cons.mp h with rfl | h
        · exact nomatch hc
        · exact List.mem_cons_of_mem _ (ih h hc)
      · cases hsplit : value.splitOnP p with
        | nil => exact absurd hsplit (List.splitOnP_ne_nil p value)
        | cons first rest =>
            rw [hsplit, List.modifyHead_cons] at h
            rcases List.mem_cons.mp h with rfl | h
            · rcases List.mem_cons.mp hc with rfl | hc
              · exact List.mem_cons_self
              · exact List.mem_cons_of_mem _ (ih (by simp [hsplit]) hc)
            · exact List.mem_cons_of_mem _ (ih (by simp [hsplit, h]) hc)

/-- A value is decoded unless one of its words cannot be. -/
theorem mimehdrValueDecode_isSome (value : Str) (h0 : 0 ∉ value) :
    (mimehdrValueDecode value).isSome ↔ ∀ word ∈ words value, wordInBounds word := by
  have hroom : roomOf (words value) ≤ value.length + 1 :=
    (roomOf_filter _ _).trans_eq (roomOf_splitOnP _ value)
  rw [mimehdrValueDecode, Option.isSome_map]
  apply foldlM_addWord
  · simpa [Fits] using hroom
  · intro word hword hzero
    exact h0 (mem_of_mem_splitOnP (List.mem_of_mem_filter hword) hzero)
  · intro word hword
    simpa using List.of_mem_filter hword

/-! ## Lines -/

theorem exists_cstr_append {buf : List UInt8} (h : 0 ∈ buf) :
    0 ∉ cstr buf ∧ ∃ rest, buf = cstr buf ++ 0 :: rest := by
  obtain ⟨s, rest, rfl, hs⟩ := List.eq_append_cons_of_mem h
  rw [cstr_append_zero hs]
  exact ⟨hs, rest, rfl⟩

theorem zero_mem_body {buf : List UInt8} (h : 0 ∈ buf) : 0 ∈ buf.drop (bodyStart buf) := by
  rw [bodyStart]
  split
  · next hdot =>
    cases buf with
    | nil => exact nomatch h
    | cons c buf =>
        obtain rfl : c = 46 := by simpa using hdot
        simpa using h
  · exact h

/-- Only a quoted-printable line does not stay in the buffer. -/
theorem dataBody_isSome (encoding : ContentEncoding) (buf decodeBuf : List UInt8)
    (hbuf : buf.length = sizeofBuf) (hdecode : decodeBuf.length = sizeofBuf) (h0 : 0 ∈ buf) :
    (dataBody encoding buf decodeBuf).isSome ↔
      (encoding = .quotedPrintable →
        endsOpen (cstr (buf.drop (bodyStart buf))) ∨
          bodyStart buf + qpLength (cstr (buf.drop (bodyStart buf))) + 2 < sizeofBuf) := by
  obtain ⟨hline, rest, hrest⟩ := exists_cstr_append (zero_mem_body h0)
  cases encoding with
  | none => simp [dataBody]
  | quotedPrintable =>
      simp only [dataBody, Option.isSome_map, true_imp_iff]
      rw [qpDecode_isSome _ hrest hline (le_refl _), hbuf]
  | base64 =>
      have hlt : (cstr (buf.drop (bodyStart buf))).length < decodeBuf.length := by
        have hlength := congrArg List.length hrest
        simp only [List.length_drop, List.length_append, List.length_cons] at hlength
        omega
      have hread : (cstr (buf.drop (bodyStart buf))).length ≤ (buf.drop (bodyStart buf)).length :=
        (List.takeWhile_sublist _).length_le
      obtain ⟨r, heq, -⟩ := b64Decode_within (fun _ ↦ buf.drop (bodyStart buf))
        (fun _ _ ↦ hread) rfl hlt
      simp [dataBody, heq]

/-- The decoders of received mail stay in their buffers unless a quoted-printable line keeps so
many characters that its line end does not fit behind them, or there is nothing before the `?=`
of an encoded word, or an encoding in it is cut off. -/
theorem mail_decoding_in_bounds_iff (encoding : ContentEncoding) {buf decodeBuf : List UInt8}
    {value : Str} (hbuf : buf.length = sizeofBuf) (hdecode : decodeBuf.length = sizeofBuf)
    (h0 : 0 ∈ buf) (hvalue : 0 ∉ value) :
    ((dataBody encoding buf decodeBuf).isSome ↔
      (encoding = .quotedPrintable →
        endsOpen (cstr (buf.drop (bodyStart buf))) ∨
          bodyStart buf + qpLength (cstr (buf.drop (bodyStart buf))) + 2 < sizeofBuf)) ∧
      ((mimehdrValueDecode value).isSome ↔ ∀ word ∈ words value, wordInBounds word) :=
  ⟨dataBody_isSome encoding buf decodeBuf hbuf hdecode h0, mimehdrValueDecode_isSome value hvalue⟩

/-- A line of 1022 characters ends behind its buffer.  Of an encoded word without a text, the
byte before `tmp` is written, and an equals sign before its end is read past the terminator. -/
theorem mail_decoding_overruns :
    dataBody .quotedPrintable (List.replicate 1022 97 ++ [0, 0]) (List.replicate 1024 0) = none ∧
      mimehdrValueDecode [61, 63, 97, 63, 81, 63, 61] = none ∧
      mimehdrValueDecode [61, 63, 97, 63, 81, 63, 120, 61, 63, 61] = none := by
  refine ⟨?_, ?_, ?_⟩
  · have hsome := dataBody_isSome .quotedPrintable (List.replicate 1022 97 ++ [0, 0])
      (List.replicate 1024 0) (by decide +kernel) List.length_replicate
      (List.mem_append_right _ List.mem_cons_self)
    rw [← Option.not_isSome_iff_eq_none, hsome]
    decide +kernel
  · decide +kernel
  · have hsome := mimehdrValueDecode_isSome [61, 63, 97, 63, 81, 63, 120, 61, 63, 61] (by decide)
    rw [← Option.not_isSome_iff_eq_none, hsome]
    decide +kernel

theorem mail_decoding_in_bounds_iff_witness :
    (mimehdrValueDecode [61, 63, 97, 63, 81, 63, 120, 63, 61]).isSome ∧
      (dataBody .quotedPrintable (List.replicate 1021 97 ++ [0, 0, 0])
        (List.replicate 1024 0)).isSome := by
  have hbuf : (List.replicate 1021 97 ++ [0, 0, 0] : List UInt8).length = sizeofBuf := by
    decide +kernel
  have h0 : (0 : UInt8) ∈ List.replicate 1021 97 ++ [0, 0, 0] :=
    List.mem_append_right _ List.mem_cons_self
  have hvalue : (0 : UInt8) ∉ [61, 63, 97, 63, 81, 63, 120, 63, 61] := by decide
  have hdecode : (List.replicate 1024 (0 : UInt8)).length = sizeofBuf := List.length_replicate
  obtain ⟨hbody, hheader⟩ :=
    mail_decoding_in_bounds_iff .quotedPrintable hbuf hdecode h0 hvalue
  exact ⟨hheader.mpr (by decide +kernel), hbody.mpr (by decide +kernel)⟩

end Synchronet.Sbbs3.MailSrvr
