import Synchronet.Lib.BitGroups
import Synchronet.Sbbs3.MailDecode

/-!
# The base64 codec (base64.c)

`b64_encode` writes four characters for three bytes, into memory of its own when the source is
the target; `b64_decode` keeps in `working` the bits that it has read.  Both return an `int`.
-/

namespace Synchronet.Encode

open BitGroups
open Smblib (cstr isspace)
open Sbbs3.MailSrvr (B64Result alphabetIndex b64Decode b64Finish b64Loop base64alphabet)

/-! ## Encoding -/

/-- Why `b64_encode` does not go on: an access outside of the buffers or a loop that does not
end, or a target that is too small. -/
inductive B64Stop
  | fault
  | failed (target : List UInt8)

def readByte (source : List UInt8) (inp : ℕ) : Except B64Stop UInt8 :=
  match source[inp]? with
  | none => .error .fault
  | some c => .ok c

/-- `add_char` at `pos` in the target. -/
def addChar (target : List UInt8) (pos : ℕ) (ch : UInt8) (done : Bool) (tend : ℕ) :
    Except B64Stop (List UInt8) :=
  if tend ≤ pos then .error (.failed target)
  else
    match base64alphabet[if done then 64 else ch.toNat]? with
    | none => .error .fault
    | some c => if pos < target.length then .ok (target.set pos c) else .error .fault

/-- One round of the loop of `b64_encode`: the target, the place in the source and `done`. -/
def encodeRound (source : List UInt8) (inend tend : ℕ) (target : List UInt8) (inp outp : ℕ) :
    Except B64Stop (List UInt8 × ℕ × Bool) := do
  let c ← readByte source inp
  let buf := (c &&& 0x03) <<< 4
  let target ← addChar target outp ((c &&& 0xfc) >>> 2) false tend
  let inp := inp + 1
  let enc ←
    if inend ≤ inp then pure buf
    else do
      let c ← readByte source inp
      pure (buf ||| (c &&& 0xf0) >>> 4)
  let target ← addChar target (outp + 1) enc false tend
  let done := inp == inend
  let (enc, inp) ←
    if done then pure (enc, inp)
    else do
      let c ← readByte source inp
      let buf := c <<< 2 &&& (0x3c : UInt8)
      if inp + 1 = inend then pure (buf, inp + 1)
      else do
        let c ← readByte source (inp + 1)
        pure (buf ||| (c &&& 0xc0) >>> 6, inp + 1)
  let target ← addChar target (outp + 2) enc done tend
  let done := done || inp == inend
  let (enc, inp) ←
    if done then pure (enc, inp)
    else do
      let c ← readByte source inp
      pure (c &&& 0x3f, inp + 1)
  let target ← addChar target (outp + 3) enc done tend
  pure (target, inp, done || inp == inend)

/-- The loop of `b64_encode`, for a number of rounds. -/
def encodeLoop (source : List UInt8) (inend tend : ℕ) :
    ℕ → List UInt8 → ℕ → ℕ → Bool → Except B64Stop (List UInt8 × ℕ)
  | 0, _, _, _, _ => .error .fault
  | n + 1, target, inp, outp, done =>
      if inp < inend ∧ done = false then do
        let (target, inp, done) ← encodeRound source inend tend target inp outp
        encodeLoop source inend tend n target inp (outp + 4) done
      else .ok (target, outp)

/-- `b64_encode` from its loop on, with the memory that it writes into. -/
def encodeInto (source : List UInt8) (inend : ℕ) (target : List UInt8) (tend : ℕ) :
    Option B64Result :=
  match encodeLoop source inend tend (inend + 1) target 0 0 false with
  | .error .fault => none
  | .error (.failed target) => some (.error target)
  | .ok (target, outp) =>
      if outp < tend then
        if outp < target.length then some (.ok (target.set outp 0) outp) else none
      else some (.ok target outp)

/-- `slen`, which for no length is that of the string. -/
def sourceLength (source : List UInt8) (slen : ℕ) : Option ℕ :=
  if slen = 0 then source.idxOf? 0 else some slen

/-- `b64_encode`, where no source stands for one that is the target.  New memory holds
`fresh`. -/
def b64Encode (fresh : ℕ → UInt8) (source : Option (List UInt8)) (target : List UInt8)
    (tlen slen : ℕ) : Option B64Result := do
  let slen ← sourceLength (source.getD target) slen
  match source with
  | some source => encodeInto source slen target tlen
  | none =>
      match ← encodeInto target slen ((List.range tlen).map fresh) tlen with
      | .error _ => some (.error target)
      | .ok tmpbuf result =>
          if tlen ≤ target.length then some (.ok (tmpbuf ++ target.drop tlen) result) else none

/-! ## Sextets -/

def letter (i : UInt8) : UInt8 := base64alphabet.getD i.toNat 0

/-- The indices in the alphabet for the bytes of a source. -/
def sextets : List UInt8 → List UInt8
  | [] => []
  | [a] => [(a &&& 0xfc) >>> 2, (a &&& 0x03) <<< 4]
  | [a, b] =>
      [(a &&& 0xfc) >>> 2, (a &&& 0x03) <<< 4 ||| (b &&& 0xf0) >>> 4, b <<< 2 &&& (0x3c : UInt8)]
  | a :: b :: c :: rest =>
      (a &&& 0xfc) >>> 2 :: ((a &&& 0x03) <<< 4 ||| (b &&& 0xf0) >>> 4) ::
        (b <<< 2 &&& (0x3c : UInt8) ||| (c &&& 0xc0) >>> 6) :: (c &&& 0x3f) :: sextets rest

/-- How many characters fill up the last four. -/
def pads : List UInt8 → ℕ
  | [] => 0
  | [_] => 2
  | [_, _] => 1
  | _ :: _ :: _ :: rest => pads rest

/-- The characters for the bytes of a source. -/
def b64Text (s : List UInt8) : List UInt8 :=
  (sextets s).map letter ++ List.replicate (pads s) 61

variable {s source target front back : List UInt8} {a b c x y : UInt8} {i k n : ℕ}

theorem length_b64Text (s : List UInt8) : (b64Text s).length = 4 * ((s.length + 2) / 3) := by
  fun_induction sextets s with
  | case1 => rfl
  | case2 | case3 => simp [b64Text, sextets, pads]
  | case4 a b c rest ih =>
      simp only [b64Text, sextets, pads, List.length_append, List.length_map,
        List.length_replicate, List.length_cons] at ih ⊢
      omega

/-- Bits that do not meet are added. -/
theorem toNat_or_of (hx : x.toNat = n * 2 ^ k) (hy : y.toNat < 2 ^ k) :
    (x ||| y).toNat = n * 2 ^ k + y.toNat := by
  rw [UInt8.toNat_or, hx, Nat.mul_comm, Nat.two_pow_add_eq_or_of_lt hy]

section Bytes

variable (c : UInt8)

theorem toNat_parts :
    ((c &&& 0xfc) >>> 2).toNat = c.toNat / 2 ^ 2 ∧
      ((c &&& 0x03) <<< 4).toNat = c.toNat % 2 ^ 2 * 2 ^ 4 ∧
      ((c &&& 0xf0) >>> 4).toNat = c.toNat / 2 ^ 4 ∧
      (c <<< 2 &&& (0x3c : UInt8)).toNat = c.toNat % 2 ^ 4 * 2 ^ 2 ∧
      ((c &&& 0xc0) >>> 6).toNat = c.toNat / 2 ^ 6 ∧ (c &&& 0x3f).toNat = c.toNat % 2 ^ 6 :=
  Words.forall_uint8 (p := fun c ↦ ((c &&& 0xfc) >>> 2).toNat = c.toNat / 2 ^ 2 ∧
      ((c &&& 0x03) <<< 4).toNat = c.toNat % 2 ^ 2 * 2 ^ 4 ∧
      ((c &&& 0xf0) >>> 4).toNat = c.toNat / 2 ^ 4 ∧
      (c <<< 2 &&& (0x3c : UInt8)).toNat = c.toNat % 2 ^ 4 * 2 ^ 2 ∧
      ((c &&& 0xc0) >>> 6).toNat = c.toNat / 2 ^ 6 ∧ (c &&& 0x3f).toNat = c.toNat % 2 ^ 6)
    (by decide +kernel) c

theorem toNat_high6 : ((c &&& 0xfc) >>> 2).toNat = c.toNat / 2 ^ 2 := (toNat_parts c).1

theorem toNat_low2 : ((c &&& 0x03) <<< 4).toNat = c.toNat % 2 ^ 2 * 2 ^ 4 := (toNat_parts c).2.1

theorem toNat_high4 : ((c &&& 0xf0) >>> 4).toNat = c.toNat / 2 ^ 4 := (toNat_parts c).2.2.1

theorem toNat_low4 : (c <<< 2 &&& (0x3c : UInt8)).toNat = c.toNat % 2 ^ 4 * 2 ^ 2 :=
  (toNat_parts c).2.2.2.1

theorem toNat_high2 : ((c &&& 0xc0) >>> 6).toNat = c.toNat / 2 ^ 6 := (toNat_parts c).2.2.2.2.1

theorem toNat_low6 : (c &&& 0x3f).toNat = c.toNat % 2 ^ 6 := (toNat_parts c).2.2.2.2.2

end Bytes

theorem toNat_second (a b : UInt8) : ((a &&& 0x03) <<< 4 ||| (b &&& 0xf0) >>> 4).toNat =
    a.toNat % 2 ^ 2 * 2 ^ 4 + b.toNat / 2 ^ 4 := by
  have hb := b.toNat_lt
  rw [toNat_or_of (toNat_low2 a), toNat_high4]
  rw [toNat_high4]
  omega

theorem toNat_third (b c : UInt8) : (b <<< 2 &&& (0x3c : UInt8) ||| (c &&& 0xc0) >>> 6).toNat =
    b.toNat % 2 ^ 4 * 2 ^ 2 + c.toNat / 2 ^ 6 := by
  have hc := c.toNat_lt
  rw [toNat_or_of (toNat_low4 b), toNat_high2]
  rw [toNat_high2]
  omega

theorem lt_of_mem_sextets (h : x ∈ sextets s) : x.toNat < 2 ^ 6 := by
  fun_induction sextets s with
  | case1 => cases h
  | case2 a =>
      have ha := a.toNat_lt
      simp only [List.mem_cons, List.not_mem_nil, or_false] at h
      rcases h with rfl | rfl
      · rw [toNat_high6]
        omega
      · rw [toNat_low2]
        omega
  | case3 a b =>
      have ha := a.toNat_lt
      have hb := b.toNat_lt
      simp only [List.mem_cons, List.not_mem_nil, or_false] at h
      rcases h with rfl | rfl | rfl
      · rw [toNat_high6]
        omega
      · rw [toNat_second]
        omega
      · rw [toNat_low4]
        omega
  | case4 a b c rest ih =>
      have ha := a.toNat_lt
      have hb := b.toNat_lt
      have hc := c.toNat_lt
      simp only [List.mem_cons] at h
      rcases h with rfl | rfl | rfl | rfl | h
      · rw [toNat_high6]
        omega
      · rw [toNat_second]
        omega
      · rw [toNat_third]
        omega
      · rw [toNat_low6]
        omega
      · exact ih h

/-- The bits of a byte in two parts. -/
theorem bits_byte (hk : n + k = 8) (c : UInt8) :
    bits 8 c.toNat = bits n (c.toNat / 2 ^ k) ++ bits k c.toNat := by
  rw [← hk, bits_add]

/-- A sextet of the low bits of a number and the high bits of another one. -/
theorem bits_sextet (hk : n + k = 6) (hy : i < 2 ^ k) (w : ℕ) :
    bits 6 (w % 2 ^ n * 2 ^ k + i) = bits n w ++ bits k i := by
  rw [← hk, bits_push hy, bits_mod (le_refl n)]

/-- The bits of the bytes are those of the sextets, but for zeros at the end. -/
theorem spread_sextets (s : List UInt8) :
    spread 6 ((sextets s).map UInt8.toNat) =
      spread 8 (s.map UInt8.toNat) ++ List.replicate (2 * pads s) false := by
  have hzero : ∀ w n, bits 6 (w % 2 ^ n * 2 ^ (6 - n)) = bits 6 (w % 2 ^ n * 2 ^ (6 - n) + 0) :=
    fun w n ↦ rfl
  fun_induction sextets s with
  | case1 => rfl
  | case2 a =>
      simp only [List.map_cons, List.map_nil, spread_cons, spread_nil, List.append_nil, pads,
        toNat_high6, toNat_low2]
      rw [hzero a.toNat 2, bits_sextet (k := 4) rfl (by decide), bits_byte (n := 6) (k := 2) rfl a,
        bits_zero, List.append_assoc]
  | case3 a b =>
      have hb := b.toNat_lt
      simp only [List.map_cons, List.map_nil, spread_cons, spread_nil, List.append_nil, pads,
        toNat_high6, toNat_second, toNat_low4]
      rw [hzero b.toNat 4, bits_sextet (k := 2) rfl (by decide),
        bits_sextet (k := 4) rfl (by omega), bits_byte (n := 6) (k := 2) rfl a, bits_byte (n := 4) (k := 4) rfl b, bits_zero]
      simp only [List.append_assoc]
  | case4 a b c rest ih =>
      have hb := b.toNat_lt
      have hc := c.toNat_lt
      simp only [List.map_cons, spread_cons, pads, toNat_high6, toNat_second, toNat_third,
        toNat_low6, ih]
      rw [bits_sextet (k := 4) rfl (by omega), bits_sextet (k := 2) rfl (by omega),
        bits_mod (le_refl 6), bits_byte (n := 6) (k := 2) rfl a, bits_byte (n := 4) (k := 4) rfl b,
        bits_byte (n := 2) (k := 6) rfl c]
      simp only [List.append_assoc]

/-! ## The loop of the encoder -/

/-- What `add_char` writes. -/
def charOf (ch : UInt8 × Bool) : UInt8 := if ch.2 then 61 else letter ch.1

/-- Calls of `add_char` one after another. -/
def addAll (tend : ℕ) : List (UInt8 × Bool) → List UInt8 → ℕ → Except B64Stop (List UInt8)
  | [], target, _ => pure target
  | (ch, done) :: chs, target, pos => do
      let target ← addChar target pos ch done tend
      addAll tend chs target (pos + 1)

variable {inend tend inp outp : ℕ} {rest : List UInt8} {α β : Type}

@[simp] theorem ok_bind (x : α) (f : α → Except B64Stop β) :
    (Except.ok x : Except B64Stop α) >>= f = f x := rfl

@[simp] theorem error_bind (e : B64Stop) (f : α → Except B64Stop β) :
    (Except.error e : Except B64Stop α) >>= f = .error e := rfl

theorem addChar_nil (ch : UInt8) (done : Bool) (h : tend = front.length) :
    addChar front front.length ch done tend = .error (.failed front) := by
  rw [addChar, if_pos h.le]

theorem addChar_cons {ch : UInt8} (hch : ch.toNat < 2 ^ 6) (done : Bool)
    (h : tend = (front ++ x :: back).length) :
    addChar (front ++ x :: back) front.length ch done tend =
      .ok (front ++ charOf (ch, done) :: back) := by
  have hlt : ¬tend ≤ front.length := by
    simp at h
    omega
  have hget : base64alphabet[if done then 64 else ch.toNat]? = some (charOf (ch, done)) := by
    cases done
    · have hlen : ch.toNat < base64alphabet.length := hch.trans (by decide)
      simp [charOf, letter, hlen]
    · rfl
  simp [addChar, hlt, hget]

theorem addAll_eq (chs : List (UInt8 × Bool)) (hchs : ∀ ch ∈ chs, ch.1.toNat < 2 ^ 6)
    (front back : List UInt8) (h : tend = (front ++ back).length) :
    addAll tend chs (front ++ back) front.length =
      if chs.length ≤ back.length then .ok (front ++ chs.map charOf ++ back.drop chs.length)
      else .error (.failed (front ++ (chs.map charOf).take back.length)) := by
  induction chs generalizing front back with
  | nil =>
      simp [addAll]
      rfl
  | cons ch chs ih =>
      obtain ⟨hch, hchs⟩ := List.forall_mem_cons.mp hchs
      cases back with
      | nil => simp [addAll, addChar_nil ch.1 ch.2 (by simpa using h)]
      | cons x back =>
          have hrest := ih hchs (front ++ [charOf ch]) back (by simpa using h)
          have hstep : addAll tend (ch :: chs) (front ++ x :: back) front.length =
              addAll tend chs (front ++ [charOf ch] ++ back) (front ++ [charOf ch]).length := by
            rw [addAll, addChar_cons hch ch.2 h]
            simp [charOf]
          rw [hstep, hrest]
          simp

section Round

variable (h : (source.take inend).drop inp = rest)

include h

theorem length_unread (hinend : inend ≤ source.length) : rest.length = inend - inp := by
  rw [← h, List.length_drop, List.length_take, min_eq_left hinend]

theorem readByte_of_unread (hi : rest[i]? = some c) : readByte source (inp + i) = .ok c := by
  rw [← h, List.getElem?_drop] at hi
  have hget : source[inp + i]? = some c := by
    obtain ⟨hlt, hval⟩ := List.getElem?_eq_some_iff.mp hi
    rw [← hval, List.getElem_take]
    exact List.getElem?_eq_getElem _
  rw [readByte, hget]

end Round

theorem encodeRound_one (h : (source.take inend).drop inp = [a]) (hinend : inend ≤ source.length) :
    encodeRound source inend tend target inp outp = (fun t ↦ (t, inp + 1, true)) <$>
      addAll tend [((a &&& 0xfc) >>> 2, false), ((a &&& 0x03) <<< 4, false),
        ((a &&& 0x03) <<< 4, true), ((a &&& 0x03) <<< 4, true)] target outp := by
  have hlen := length_unread h hinend
  simp only [List.length_singleton] at hlen
  have hend : inend = inp + 1 := by omega
  have ha : readByte source inp = .ok a := readByte_of_unread h (i := 0) rfl
  simp [encodeRound, addAll, ha, hend]

theorem encodeRound_two (h : (source.take inend).drop inp = [a, b])
    (hinend : inend ≤ source.length) :
    encodeRound source inend tend target inp outp = (fun t ↦ (t, inp + 2, true)) <$>
      addAll tend [((a &&& 0xfc) >>> 2, false),
        ((a &&& 0x03) <<< 4 ||| (b &&& 0xf0) >>> 4, false), (b <<< 2 &&& (0x3c : UInt8), false),
        (b <<< 2 &&& (0x3c : UInt8), true)] target outp := by
  have hlen := length_unread h hinend
  simp only [List.length_cons, List.length_nil] at hlen
  have hend : inend = inp + 2 := by omega
  have ha : readByte source inp = .ok a := readByte_of_unread h (i := 0) rfl
  have hb : readByte source (inp + 1) = .ok b := readByte_of_unread h (i := 1) rfl
  have hsecond : (inp == inp + 1) = false := by simp
  simp [encodeRound, addAll, ha, hb, hend, hsecond, Nat.add_assoc]

theorem encodeRound_three (h : (source.take inend).drop inp = a :: b :: c :: rest)
    (hinend : inend ≤ source.length) :
    encodeRound source inend tend target inp outp =
      (fun t ↦ (t, inp + 3, inp + 3 == inend)) <$>
        addAll tend [((a &&& 0xfc) >>> 2, false),
          ((a &&& 0x03) <<< 4 ||| (b &&& 0xf0) >>> 4, false),
          (b <<< 2 &&& (0x3c : UInt8) ||| (c &&& 0xc0) >>> 6, false), (c &&& 0x3f, false)]
          target outp := by
  have hlen := length_unread h hinend
  simp only [List.length_cons] at hlen
  have ha : readByte source inp = .ok a := readByte_of_unread h (i := 0) rfl
  have hb : readByte source (inp + 1) = .ok b := readByte_of_unread h (i := 1) rfl
  have hc : readByte source (inp + 2) = .ok c := readByte_of_unread h (i := 2) rfl
  have hmore : ¬inend ≤ inp + 1 := by omega
  have hsecond : (inp + 1 == inend) = false := by simpa using by omega
  have hne : inp + 2 ≠ inend := by omega
  have hthird : (inp + 2 == inend) = false := beq_false_of_ne hne
  simp [encodeRound, addAll, ha, hb, hc, hmore, hsecond, hne, hthird, Nat.add_assoc]

/-- What the loop of the encoder does with the memory behind what it has written. -/
def Fills (front back text : List UInt8) (r : Except B64Stop (List UInt8 × ℕ)) : Prop :=
  r = if text.length ≤ back.length then
      .ok (front ++ text ++ back.drop text.length, (front ++ text).length)
    else .error (.failed (front ++ text.take back.length))

theorem encodeLoop_end (n : ℕ) (target : List UInt8) (outp : ℕ) (done : Bool) (h : inend ≤ inp) :
    encodeLoop source inend tend (n + 1) target inp outp done = .ok (target, outp) := by
  rw [encodeLoop, if_neg (by omega)]

section Fills

variable {text chars : List UInt8} {r : Except B64Stop (List UInt8 × ℕ)}

theorem fills_nil (front back : List UInt8) :
    Fills front back [] (.ok (front ++ back, front.length)) := by
  simp [Fills]

/-- Characters that have room, and the loop behind them. -/
theorem Fills.append (hroom : chars.length ≤ back.length)
    (h : Fills (front ++ chars) (back.drop chars.length) text r) :
    Fills front back (chars ++ text) r := by
  have hroom' : text.length ≤ back.length - chars.length ↔
      (chars ++ text).length ≤ back.length := by
    rw [List.length_append]
    omega
  rw [Fills, List.length_drop, if_congr hroom' rfl rfl] at h
  rw [Fills, h, List.take_append, List.take_of_length_le hroom]
  simp

/-- Characters that do not have room. -/
theorem fills_of_lt (text : List UInt8) (hroom : back.length < chars.length) :
    Fills front back (chars ++ text) (.error (.failed (front ++ chars.take back.length))) := by
  have hlong : ¬(chars ++ text).length ≤ back.length := by
    rw [List.length_append]
    omega
  rw [Fills, if_neg hlong, List.take_append_of_le_length hroom.le]

/-- A round of the loop, with the characters that it writes. -/
theorem encodeLoop_round {done : Bool} (chs : List (UInt8 × Bool))
    (hchs : ∀ ch ∈ chs, ch.1 ∈ sextets s) (hfour : chs.length = 4) (hlt : inp < inend)
    (hround : encodeRound source inend tend (front ++ back) inp front.length =
      (fun t ↦ (t, k, done)) <$> addAll tend chs (front ++ back) front.length)
    (htend : tend = (front ++ back).length)
    (hnext : chs.length ≤ back.length → Fills (front ++ chs.map charOf) (back.drop chs.length) text
      (encodeLoop source inend tend n (front ++ chs.map charOf ++ back.drop chs.length) k
        (front ++ chs.map charOf).length done)) :
    Fills front back (chs.map charOf ++ text)
      (encodeLoop source inend tend (n + 1) (front ++ back) inp front.length false) := by
  have hsmall : ∀ ch ∈ chs, ch.1.toNat < 2 ^ 6 := fun ch hch ↦ lt_of_mem_sextets (hchs ch hch)
  rw [encodeLoop, if_pos ⟨hlt, rfl⟩, hround, bind_map_left, addAll_eq chs hsmall front back htend]
  split
  · case isTrue hroom =>
      refine Fills.append (by simpa using hroom) ?_
      simpa [hfour] using hnext hroom
  · case isFalse hroom => exact fills_of_lt text (by simpa using hroom)

end Fills

/-- The loop writes the characters for the bytes that it has not read. -/
theorem encodeLoop_fills (hinend : inend ≤ source.length) (n inp : ℕ) (front back : List UInt8)
    (htend : tend = (front ++ back).length) (hn : inend - inp < n) :
    Fills front back (b64Text ((source.take inend).drop inp))
      (encodeLoop source inend tend n (front ++ back) inp front.length false) := by
  obtain ⟨n, rfl⟩ : ∃ m, n = m + 1 := ⟨n - 1, by omega⟩
  generalize hrest : (source.take inend).drop inp = rest
  have hlen := length_unread hrest hinend
  induction rest using sextets.induct generalizing n inp front back with
  | case1 =>
      simp only [List.length_nil] at hlen
      rw [encodeLoop_end n _ _ _ (by omega)]
      exact fills_nil front back
  | case2 a =>
      simp only [List.length_singleton] at hlen
      obtain ⟨n, rfl⟩ : ∃ m, n = m + 1 := ⟨n - 1, by omega⟩
      refine encodeLoop_round (s := [a]) _ ?_ rfl (by omega) (encodeRound_one hrest hinend) htend
        fun _ ↦ ?_
      · simp [sextets]
      · rw [encodeLoop_end n _ _ _ (by omega)]
        exact fills_nil _ _
  | case3 a b =>
      simp only [List.length_cons, List.length_nil] at hlen
      obtain ⟨n, rfl⟩ : ∃ m, n = m + 1 := ⟨n - 1, by omega⟩
      refine encodeLoop_round (s := [a, b]) _ ?_ rfl (by omega) (encodeRound_two hrest hinend)
        htend fun _ ↦ ?_
      · simp [sextets]
      · rw [encodeLoop_end n _ _ _ (by omega)]
        exact fills_nil _ _
  | case4 a b c rest ih =>
      simp only [List.length_cons] at hlen
      obtain ⟨n, rfl⟩ : ∃ m, n = m + 1 := ⟨n - 1, by omega⟩
      have hnext : (source.take inend).drop (inp + 3) = rest := by
        rw [← List.drop_drop, hrest]
        rfl
      refine encodeLoop_round (s := [a, b, c]) _ ?_ rfl (by omega)
        (encodeRound_three hrest hinend) htend fun hroom ↦ ?_
      · simp [sextets]
      · cases rest with
        | nil =>
            simp only [List.length_nil] at hlen
            rw [encodeLoop_end n _ _ _ (by omega)]
            exact fills_nil _ _
        | cons d rest =>
            simp only [List.length_cons] at hlen hroom
            have hmore : (inp + 3 == inend) = false := beq_false_of_ne (by omega)
            rw [hmore]
            refine ih (inp + 3) _ _ ?_ n (by omega) hnext (by simp only [List.length_cons]; omega)
            simp only [List.length_append, List.length_drop, List.length_map, List.length_cons]
              at htend ⊢
            omega

/-- What `b64_encode` returns for a target of that size: the text, with a zero behind it where
there is room, or an error where the text itself has no room. -/
def Encoded (size : ℕ) (text : List UInt8) (r : B64Result) : Prop :=
  (∃ t, r = .ok t text.length ∧ t.length = size ∧ text <+: t ∧
      (text.length < size → text ++ [0] <+: t)) ∨
    size < text.length ∧ ∃ t, r = .error t ∧ t.length = size

theorem encodeInto_encoded (hinend : inend ≤ source.length) (target : List UInt8) :
    ∃ r, encodeInto source inend target target.length = some r ∧
      Encoded target.length (b64Text (source.take inend)) r := by
  have htend : target.length = ([] ++ target).length := rfl
  have hloop := encodeLoop_fills hinend (inend + 1) 0 [] target htend (by omega)
  simp only [List.nil_append, List.length_nil, List.drop_zero, Fills] at hloop
  rw [encodeInto, hloop]
  by_cases hroom : (b64Text (source.take inend)).length ≤ target.length
  · rw [if_pos hroom]
    by_cases hlt : (b64Text (source.take inend)).length < target.length
    · obtain ⟨x, back, hback⟩ := List.exists_cons_of_length_pos
        (l := target.drop (b64Text (source.take inend)).length) (by rw [List.length_drop]; omega)
      have hlen := congrArg List.length hback
      rw [List.length_drop, List.length_cons] at hlen
      refine ⟨.ok (b64Text (source.take inend) ++ 0 :: back) _, ?_, Or.inl ⟨_, rfl, ?_, ?_, ?_⟩⟩
      · simp [hback, hlt]
      · rw [List.length_append, List.length_cons]
        omega
      · exact List.prefix_append _ _
      · exact fun _ ↦ ⟨back, by simp⟩
    · have hnone : target.drop (b64Text (source.take inend)).length = [] :=
        List.drop_of_length_le (by omega)
      refine ⟨.ok (b64Text (source.take inend)) _, ?_, Or.inl ⟨_, rfl, ?_, ?_, ?_⟩⟩
      · simp [hnone, hlt]
      · omega
      · exact List.prefix_refl _
      · exact fun h ↦ absurd h hlt
  · rw [if_neg hroom]
    exact ⟨_, rfl, Or.inr ⟨by omega, _, rfl, by rw [List.length_take]; omega⟩⟩

/-- The bytes that a call is given. -/
def Given (source : List UInt8) (slen : ℕ) (s : List UInt8) : Prop :=
  ∃ n ≤ source.length, sourceLength source slen = some n ∧ source.take n = s

/-- `b64_encode` with a source of its own and in place. -/
theorem b64Encode_encoded (fresh : ℕ → UInt8) (source : Option (List UInt8)) (target : List UInt8)
    {slen : ℕ} (h : Given (source.getD target) slen s) :
    ∃ r, b64Encode fresh source target target.length slen = some r ∧
      Encoded target.length (b64Text s) r := by
  obtain ⟨n, hn, hslen, rfl⟩ := h
  cases source with
  | some source =>
      rw [Option.getD_some] at hn hslen ⊢
      obtain ⟨r, hinto, hr⟩ := encodeInto_encoded hn target
      exact ⟨r, by simpa [b64Encode, hslen] using hinto, hr⟩
  | none =>
      rw [Option.getD_none] at hn hslen ⊢
      have hsize : ((List.range target.length).map fresh).length = target.length := by simp
      obtain ⟨r, hinto, hr⟩ := encodeInto_encoded hn ((List.range target.length).map fresh)
      rw [hsize] at hinto hr
      rcases hr with ⟨t, rfl, hlen, hpre, hzero⟩ | ⟨hsmall, t, rfl, hlen⟩
      · refine ⟨.ok t _, ?_, Or.inl ⟨t, rfl, hlen, hpre, hzero⟩⟩
        simp [b64Encode, hslen, hinto]
      · refine ⟨.error target, ?_, Or.inr ⟨hsmall, target, rfl, rfl⟩⟩
        simp [b64Encode, hslen, hinto]

/-! ## The decoder -/

/-- The byte that `b64_decode` takes out of `working`. -/
def takenByte (working : UInt32) (bits : ℕ) : UInt8 :=
  ((working &&& (0xff <<< UInt32.ofNat bits)) >>> UInt32.ofNat bits).toUInt8

/-- The bytes that a text stands for behind what has been read, as long as there is room. -/
def payload : UInt32 → ℕ → List UInt8 → Option (List UInt8)
  | _, _, [] => some []
  | working, bits, c :: rest =>
      if isspace c then payload working bits rest
      else
        match alphabetIndex c with
        | none => none
        | some i =>
            if base64alphabet[i]? = some 61 then
              if (working <<< 6) &&& 0xff ≠ 0 then none else some []
            else
              let working := working <<< 6 ||| UInt32.ofNat i
              if 8 ≤ bits + 6 then
                (payload working (bits + 6 - 8) rest).map (takenByte working (bits + 6 - 8) :: ·)
              else payload working (bits + 6) rest

/-- What `b64_decode` returns for a target of that size, from the place behind `front` on. -/
def Decoded (size : ℕ) (front : List UInt8) (bytes : Option (List UInt8)) (r : B64Result) : Prop :=
  (∃ s back, bytes = some s ∧ r = .ok (front ++ s ++ 0 :: back) (front ++ s).length ∧
      (front ++ s ++ 0 :: back).length = size) ∨
    (∀ s, bytes = some s → size ≤ (front ++ s).length) ∧ ∃ t, r = .error t ∧ t.length = size

/-- Writing behind the place that is being read leaves what has not been read. -/
def Behind (source : List UInt8 → List UInt8) : Prop :=
  ∀ t p x q, p ≤ q → (source (t.set p x)).drop (q + 1) = (source t).drop (q + 1)

theorem behind_const (s : List UInt8) : Behind fun _ ↦ s := fun _ _ _ _ _ ↦ rfl

theorem behind_drop (n : ℕ) : Behind fun t ↦ t.drop n := by
  intro t p x q hpq
  rw [List.drop_drop, List.drop_drop, List.drop_set_of_lt (by omega)]

/-! ## The loop of the decoder -/

section Loop

variable {input : List UInt8 → List UInt8} {tlen : ℕ} {bytes : Option (List UInt8)}

/-- Where the target is full nothing but an error is returned. -/
theorem b64Finish_full (bytes : Option (List UInt8)) (htarget : target.length = tlen)
    (hpos : 0 < tlen) :
    ∃ r, b64Finish target tlen tlen = some r ∧ Decoded tlen (target.take tlen) bytes r := by
  refine ⟨.error (target.set (tlen - 1) 0), ?_, Or.inr ⟨fun s _ ↦ ?_, _, rfl, ?_⟩⟩
  · rw [b64Finish, if_pos rfl, if_neg (by omega)]
  · rw [List.length_append, List.length_take]
    omega
  · rw [List.length_set, htarget]

theorem b64Finish_decoded (htarget : target.length = tlen) (hpos : 0 < tlen) (hle : outp ≤ tlen) :
    ∃ r, b64Finish target tlen outp = some r ∧ Decoded tlen (target.take outp) (some []) r := by
  obtain rfl | hlt := Nat.eq_or_lt_of_le hle
  · exact b64Finish_full (some []) htarget hpos
  · have hset : target.set outp 0 = target.take outp ++ 0 :: target.drop (outp + 1) :=
      List.set_eq_take_append_cons_drop.trans (if_pos (by omega))
    refine ⟨.ok (target.set outp 0) outp, ?_, Or.inl ⟨[], target.drop (outp + 1), rfl, ?_, ?_⟩⟩
    · rw [b64Finish, if_neg (by omega), if_pos (by omega)]
    · simp [hset, htarget, hle]
    · simp only [List.append_nil, ← hset, List.length_set, htarget]

/-- A byte that has been written belongs to the payload. -/
theorem Decoded.cons {r : B64Result} {size : ℕ} (h : Decoded size (front ++ [x]) bytes r) :
    Decoded size front (bytes.map (x :: ·)) r := by
  rcases h with ⟨s, back, rfl, rfl, hlen⟩ | ⟨hfull, t, rfl, hlen⟩
  · exact Or.inl ⟨x :: s, back, rfl, by simp, by simpa using hlen⟩
  · refine Or.inr ⟨fun s hs ↦ ?_, t, rfl, hlen⟩
    obtain ⟨s', hs', rfl⟩ := Option.map_eq_some_iff.mp hs
    simpa using hfull s' hs'

theorem take_set_succ (h : i < target.length) :
    (target.set i x).take (i + 1) = target.take i ++ [x] := by
  rw [List.take_add_one, List.take_set_of_le (le_refl i), List.getElem?_set_self h]
  rfl

theorem unread_cons (hlt : inp < inend) (hget : source[inp]? = some c) :
    (source.take inend).drop inp = c :: (source.take inend).drop (inp + 1) := by
  obtain ⟨hlen, rfl⟩ := List.getElem?_eq_some_iff.mp hget
  rw [List.drop_eq_getElem_cons (by rw [List.length_take]; omega), List.getElem_take]

theorem unread_set (hfrom : Behind input) (hout : outp ≤ inp) :
    ((input (target.set outp x)).take inend).drop (inp + 1) =
      ((input target).take inend).drop (inp + 1) := by
  rw [List.drop_take, List.drop_take, hfrom target outp x inp hout]

/-- The loop of the decoder writes what the characters stand for that it has not read. -/
theorem b64Loop_decoded (hfrom : Behind input)
    (hread : ∀ t, t.length = tlen → inend ≤ (input t).length) (hpos : 0 < tlen)
    (target : List UInt8) (inp outp : ℕ) (working : UInt32) (bits : ℕ)
    (htarget : target.length = tlen) (hout : outp ≤ inp) (hle : outp ≤ tlen) :
    ∃ r, b64Loop input tlen inend target inp outp working bits = some r ∧
      Decoded tlen (target.take outp)
        (payload working bits (((input target).take inend).drop inp)) r := by
  fun_induction b64Loop input tlen inend target inp outp working bits with
  | case1 target inp outp working bits hlt hnone =>
      have hlen := hread target htarget
      rw [List.getElem?_eq_none_iff] at hnone
      omega
  | case2 target inp outp working bits hlt c hc hspace ih =>
      rw [unread_cons hlt.2 hc, payload, if_pos hspace]
      exact ih htarget (by omega) hle
  | case3 target inp outp working bits hlt c hc hspace hnone =>
      rw [unread_cons hlt.2 hc, payload, if_neg hspace, hnone]
      exact ⟨_, rfl, Or.inr ⟨by simp, target, rfl, htarget⟩⟩
  | case4 target inp outp working bits hlt c hc hspace working' i hi hpad hbits =>
      rw [unread_cons hlt.2 hc, payload, if_neg hspace, hi]
      simp only [if_pos hpad]
      rw [if_pos hbits]
      exact ⟨_, rfl, Or.inr ⟨by simp, target, rfl, htarget⟩⟩
  | case5 target inp outp working bits hlt c hc hspace working' i hi hpad hbits =>
      rw [unread_cons hlt.2 hc, payload, if_neg hspace, hi]
      simp only [if_pos hpad]
      rw [if_neg hbits]
      exact b64Finish_decoded htarget hpos hle
  | case6 target inp outp working bits hlt c hc hspace working' i hi hpad bits' w hbits hroom
      shift ih =>
      obtain ⟨r, hloop, hr⟩ := ih (by rw [List.length_set, htarget]) (by omega) (by omega)
      rw [unread_set hfrom hout, take_set_succ hroom] at hr
      refine ⟨r, hloop, ?_⟩
      rw [unread_cons hlt.2 hc, payload, if_neg hspace, hi]
      simp only [if_neg hpad]
      rw [if_pos hbits]
      exact hr.cons
  | case7 => omega
  | case8 target inp outp working bits hlt c hc hspace working' i hi hpad bits' w hbits ih =>
      obtain ⟨r, hloop, hr⟩ := ih htarget (by omega) hle
      refine ⟨r, hloop, ?_⟩
      rw [unread_cons hlt.2 hc, payload, if_neg hspace, hi]
      simp only [if_neg hpad]
      rw [if_neg hbits]
      exact hr
  | case9 target inp outp working bits hend =>
      obtain rfl | hlt := Nat.eq_or_lt_of_le hle
      · exact b64Finish_full _ htarget hpos
      · have hnil : ((input target).take inend).drop inp = [] := by
          apply List.drop_of_length_le
          rw [List.length_take]
          omega
        rw [hnil]
        exact b64Finish_decoded htarget hpos hle

end Loop

/-! ## The register of the decoder -/

theorem letter_spec (i : UInt8) (h : i.toNat < 2 ^ 6) :
    isspace (letter i) = false ∧ alphabetIndex (letter i) = some i.toNat ∧
      base64alphabet[i.toNat]? ≠ some 61 :=
  Words.forall_uint8 (p := fun i ↦ i.toNat < 2 ^ 6 → isspace (letter i) = false ∧
    alphabetIndex (letter i) = some i.toNat ∧ base64alphabet[i.toNat]? ≠ some 61)
    (by decide +kernel) i h

theorem toNat_push (w : UInt32) (hi : i < 2 ^ 6) :
    (w <<< 6 ||| UInt32.ofNat i).toNat = (w.toNat * 2 ^ 6 + i) % 2 ^ 32 := by
  have hshift : (w <<< 6).toNat = 2 ^ 6 * (w.toNat % 2 ^ 26) := by
    simp only [UInt32.toNat_shiftLeft, UInt32.reduceToNat, Nat.reduceMod, Nat.shiftLeft_eq]
    omega
  rw [UInt32.toNat_or, Words.toNat_ofNat_uint32 (hi.trans (by decide)), hshift,
    ← Nat.two_pow_add_eq_or_of_lt hi]
  omega

theorem toNat_takenByte (w : UInt32) (hk : k ≤ 5) :
    (takenByte w k).toNat = w.toNat / 2 ^ k % 2 ^ 8 := by
  have hshift : (UInt32.ofNat k).toNat % 32 = k := by
    rw [Words.toNat_ofNat_uint32 (by omega)]
    omega
  apply Nat.eq_of_testBit_eq
  intro j
  simp only [takenByte, UInt32.toNat_toUInt8, Nat.testBit_mod_two_pow, UInt32.toNat_shiftRight, hshift,
    Nat.testBit_shiftRight, UInt32.toNat_and, Nat.testBit_and, UInt32.toNat_shiftLeft,
    Nat.testBit_shiftLeft, Nat.testBit_div_two_pow]
  by_cases hj : j < 8
  · have hmask : Nat.testBit 255 j = true :=
      (Nat.testBit_two_pow_sub_one 8 j).trans (decide_eq_true hj)
    have hlt : k + j < 32 := by omega
    simp [hj, hmask, hlt, Nat.add_comm]
  · simp [hj]

theorem payload_letters (items : List UInt8) (hitems : ∀ i ∈ items, i.toNat < 2 ^ 6)
    (working : UInt32) (count : ℕ) (hcount : count < 8) (rest : List UInt8) :
    ∃ out w, payload working count (items.map letter ++ rest) =
        (payload w (regroup 6 8 32 working.toNat count (items.map UInt8.toNat)).2.2 rest).map
          (out ++ ·) ∧
      out.map UInt8.toNat = (regroup 6 8 32 working.toNat count (items.map UInt8.toNat)).1 ∧
      w.toNat = (regroup 6 8 32 working.toNat count (items.map UInt8.toNat)).2.1 := by
  induction items generalizing working count with
  | nil => exact ⟨[], working, by simp [regroup], rfl, rfl⟩
  | cons i items ih =>
      obtain ⟨hi, hitems⟩ := List.forall_mem_cons.mp hitems
      obtain ⟨hspace, hindex, hpad⟩ := letter_spec i hi
      have hpush := toNat_push working hi
      simp only [List.map_cons, List.cons_append, payload, hspace, hindex, regroup]
      rw [if_neg (by decide)]
      simp only [if_neg hpad]
      rw [← hpush]
      by_cases hfull : 8 ≤ count + 6
      · obtain ⟨out, w, hrun, hout, hw⟩ := ih hitems (working <<< 6 ||| UInt32.ofNat i.toNat)
          (count + 6 - 8) (by omega)
        rw [if_pos hfull, if_pos hfull, hrun]
        refine ⟨takenByte (working <<< 6 ||| UInt32.ofNat i.toNat) (count + 6 - 8) :: out, w,
          ?_, ?_, hw⟩
        · rw [Option.map_map]
          rfl
        · rw [List.map_cons, hout, toNat_takenByte _ (by omega)]
      · obtain ⟨out, w, hrun, hout, hw⟩ := ih hitems (working <<< 6 ||| UInt32.ofNat i.toNat)
          (count + 6) (by omega)
        rw [if_neg hfull, if_neg hfull]
        exact ⟨out, w, hrun, hout, hw⟩

theorem pads_le (s : List UInt8) : pads s ≤ 2 := by
  fun_induction pads s with
  | case1 | case2 | case3 => decide
  | case4 a b c rest ih => exact ih

/-- The characters that fill up the text are for zero bits only. -/
theorem payload_pads (w : UInt32) (count : ℕ) (h : w.toNat % 2 ^ (2 * n) = 0) :
    payload w count (List.replicate n 61) = some [] := by
  cases n with
  | zero => rfl
  | succ n =>
      have hdvd : 2 ^ 2 ∣ w.toNat :=
        (pow_dvd_pow 2 (by omega : 2 ≤ 2 * (n + 1))).trans (Nat.dvd_of_mod_eq_zero h)
      have hzero : (w <<< 6) &&& 0xff = 0 := by
        apply UInt32.toNat_inj.mp
        have hmask : (255 : ℕ) = 2 ^ 8 - 1 := rfl
        simp only [UInt32.toNat_and, UInt32.toNat_shiftLeft, UInt32.reduceToNat, Nat.reduceMod,
          Nat.shiftLeft_eq]
        rw [hmask, Nat.and_two_pow_sub_one_eq_mod]
        omega
      have hindex : alphabetIndex 61 = some 64 := by decide
      have hpad : base64alphabet[64]? = some 61 := by decide
      rw [List.replicate_succ, payload, if_neg (by decide), hindex]
      simp only [if_pos hpad]
      rw [if_neg (by simp [hzero])]

/-- The text of some bytes stands for them. -/
theorem payload_b64Text (s : List UInt8) : payload 0 0 (b64Text s) = some s := by
  have hitems : ∀ i ∈ sextets s, i.toNat < 2 ^ 6 := fun i hi ↦ lt_of_mem_sextets hi
  obtain ⟨out, w, hrun, hout, hw⟩ :=
    payload_letters (sextets s) hitems 0 0 (by decide) (List.replicate (pads s) 61)
  have hdigits : ∀ i ∈ (sextets s).map UInt8.toNat, i < 2 ^ 6 := by simpa using hitems
  obtain ⟨hleft, hbits⟩ := spread_regroup (b := 8) (m := 32) (by decide) (by decide) 0 0
    (by decide) hdigits
  change w.toNat = (regroup 6 8 32 0 0 ((sextets s).map UInt8.toNat)).2.1 at hw
  change out.map UInt8.toNat = (regroup 6 8 32 0 0 ((sextets s).map UInt8.toNat)).1 at hout
  rw [← hout, ← hw, spread_sextets] at hbits
  have hbyte : ∀ (t : List UInt8), ∀ x ∈ t.map UInt8.toNat, x < 2 ^ 8 := by
    intro t x hx
    obtain ⟨c, -, rfl⟩ := List.mem_map.mp hx
    exact c.toNat_lt
  have hpads := pads_le s
  obtain ⟨hmap, hzeros⟩ := spread_inj (hbyte out) (hbyte s) (by rw [length_bits]; exact hleft)
    (by rw [List.length_replicate]; omega) hbits
  have hcount := congrArg List.length hzeros
  rw [length_bits, List.length_replicate] at hcount
  obtain rfl : out = s := List.map_injective_iff.mpr (fun _ _ ↦ UInt8.toNat_inj.mp) hmap
  rw [hcount, ← bits_zero] at hzeros
  have hmod := mod_eq_of_bits hzeros
  rw [b64Text, hrun]
  rw [payload_pads w _ (by simpa using hmod)]
  simp

/-! ## Both together -/

/-- The `int` that is returned. -/
def returned : B64Result → ℤ
  | .ok _ length => (Int32.ofNat length).toInt
  | .error _ => -1

/-- What the target holds then. -/
def contents : B64Result → List UInt8
  | .ok target _ => target
  | .error target => target

/-- An `int` that is passed as a `size_t`. -/
def sizeT (n : ℤ) : ℕ := (n % 2 ^ 64).toNat

theorem toInt_ofNat (h : n < 2 ^ 31) : (Int32.ofNat n).toInt = n :=
  Int32.toInt_ofNat_of_lt h

theorem length_cstr_of_idxOf (h : s.idxOf? 0 = some n) : (cstr s).length = n := by
  induction s generalizing n with
  | nil => cases h
  | cons c s ih =>
      rw [List.idxOf?_cons] at h
      by_cases hc : c = 0
      · subst hc
        obtain rfl : 0 = n := by simpa using h
        rfl
      · rw [if_neg (by simpa using hc)] at h
        obtain ⟨m, hm, rfl⟩ := Option.map_eq_some_iff.mp h
        simpa [cstr, hc] using ih hm

theorem length_of_sourceLength {slen : ℕ} (h : sourceLength source slen = some n) :
    (if slen = 0 then (cstr source).length else slen) = n := by
  rw [sourceLength] at h
  split
  · case isTrue hzero =>
      rw [if_pos hzero] at h
      exact length_cstr_of_idxOf h
  · case isFalse hne =>
      rw [if_neg hne] at h
      exact Option.some.inj h

/-- `b64_decode` with a source of its own or one that is part of the target. -/
theorem b64Decode_decoded {input : List UInt8 → List UInt8} (hinput : Behind input)
    {slen : ℕ} (hlen : ∀ t, t.length = target.length → (input t).length = (input target).length)
    (h : Given (input target) slen s) (hpos : target ≠ []) :
    ∃ r, b64Decode input target target.length slen = some r ∧
      Decoded target.length [] (payload 0 0 s) r := by
  obtain ⟨n, hn, hslen, rfl⟩ := h
  have hread : ∀ t, t.length = target.length → n ≤ (input t).length := fun t ht ↦ by
    rw [hlen t ht]
    exact hn
  have hloop := b64Loop_decoded hinput hread (List.length_pos_of_ne_nil hpos) target 0 0 0 0 rfl
    (le_refl 0) (Nat.zero_le _)
  rw [b64Decode, length_of_sourceLength hslen]
  simpa using hloop

/-- `b64_encode` leaves the target as long as it is and returns -1 or the number of characters
at its start, if this is an `int`. -/
theorem b64Encode_reports (fresh : ℕ → UInt8) (source : Option (List UInt8)) {slen : ℕ}
    (h : Given (source.getD target) slen s) :
    ∃ r, b64Encode fresh source target target.length slen = some r ∧
      (contents r).length = target.length ∧
      (returned r = -1 ∨ b64Text s <+: contents r ∧
        ((b64Text s).length < 2 ^ 31 → returned r = (b64Text s).length)) := by
  obtain ⟨r, hencode, hr⟩ := b64Encode_encoded fresh source target h
  refine ⟨r, hencode, ?_⟩
  rcases hr with ⟨t, rfl, hlen, hpre, -⟩ | ⟨-, t, rfl, hlen⟩
  · exact ⟨hlen, Or.inr ⟨hpre, fun hsmall ↦ toInt_ofNat hsmall⟩⟩
  · exact ⟨hlen, Or.inl rfl⟩

/-- `b64_decode` leaves the target as long as it is and returns -1 or the number of bytes in
front of a zero, if this is an `int`. -/
theorem b64Decode_reports {input : List UInt8 → List UInt8} (hinput : Behind input) {slen : ℕ}
    (hlen : ∀ t, t.length = target.length → (input t).length = (input target).length)
    (h : Given (input target) slen s) (hpos : target ≠ []) :
    ∃ r, b64Decode input target target.length slen = some r ∧
      (contents r).length = target.length ∧
      (returned r = -1 ∨ ∃ bytes, payload 0 0 s = some bytes ∧ bytes ++ [0] <+: contents r ∧
        (bytes.length < 2 ^ 31 → returned r = bytes.length)) := by
  obtain ⟨r, hdecode, hr⟩ := b64Decode_decoded hinput hlen h hpos
  refine ⟨r, hdecode, ?_⟩
  rcases hr with ⟨bytes, back, hbytes, rfl, hlen⟩ | ⟨-, t, rfl, hlen⟩
  · refine ⟨hlen, Or.inr ⟨bytes, hbytes, ⟨back, by simp [contents]⟩, fun hsmall ↦ ?_⟩⟩
    exact toInt_ofNat (by simpa using hsmall)
  · exact ⟨hlen, Or.inl rfl⟩

/-- The text that is returned is decoded to what it was made of. -/
theorem b64Decode_b64Encode (fresh : ℕ → UInt8) {slen : ℕ} {coded decoded : List UInt8}
    (h : Given source slen s) (hne : s ≠ []) (hsmall : 4 * ((s.length + 2) / 3) < 2 ^ 31)
    (hcoded : 4 * ((s.length + 2) / 3) ≤ coded.length) (hdecoded : s.length < decoded.length) :
    ∃ r₁ r₂, b64Encode fresh (some source) coded coded.length slen = some r₁ ∧
      b64Decode (fun _ ↦ contents r₁) decoded decoded.length (sizeT (returned r₁)) = some r₂ ∧
      returned r₂ = s.length ∧ (contents r₂).take s.length = s := by
  have hpos := List.length_pos_of_ne_nil hne
  have hlength := length_b64Text s
  obtain ⟨r₁, hencode, hr₁⟩ := b64Encode_encoded fresh (some source) coded h
  rcases hr₁ with ⟨t, rfl, -, hpre, -⟩ | ⟨hlt, -⟩
  · have hslen : sizeT (returned (.ok t (b64Text s).length)) = (b64Text s).length := by
      rw [returned, toInt_ofNat (by omega), sizeT]
      omega
    have htext : Given t (b64Text s).length (b64Text s) :=
      ⟨_, hpre.length_le, if_neg (by omega), (List.prefix_iff_eq_take.mp hpre).symm⟩
    obtain ⟨r₂, hdecode, hr₂⟩ := b64Decode_decoded (behind_const t) (fun _ _ ↦ rfl) htext
      (List.ne_nil_of_length_pos (by omega : 0 < decoded.length))
    rw [payload_b64Text] at hr₂
    refine ⟨_, r₂, hencode, by rw [hslen]; exact hdecode, ?_⟩
    rcases hr₂ with ⟨s', back, hs', rfl, -⟩ | ⟨hfull, -⟩
    · obtain rfl := Option.some.inj hs'
      rw [List.nil_append]
      exact ⟨toInt_ofNat (by omega), by simp [contents]⟩
    · have hbad := hfull s rfl
      rw [List.nil_append] at hbad
      omega
  · omega

theorem b64_codec (fresh : ℕ → UInt8) :
    (∀ (source : List UInt8) (slen : ℕ) (s coded decoded : List UInt8), Given source slen s →
      s ≠ [] → 4 * ((s.length + 2) / 3) < 2 ^ 31 → 4 * ((s.length + 2) / 3) ≤ coded.length →
      s.length < decoded.length →
      ∃ r₁ r₂, b64Encode fresh (some source) coded coded.length slen = some r₁ ∧
        b64Decode (fun _ ↦ contents r₁) decoded decoded.length (sizeT (returned r₁)) = some r₂ ∧
        returned r₂ = s.length ∧ (contents r₂).take s.length = s) ∧
    (∀ (source : Option (List UInt8)) (target : List UInt8) (slen : ℕ) (s : List UInt8),
      Given (source.getD target) slen s →
      ∃ r, b64Encode fresh source target target.length slen = some r ∧
        (contents r).length = target.length ∧
        (returned r = -1 ∨ b64Text s <+: contents r ∧
          ((b64Text s).length < 2 ^ 31 → returned r = (b64Text s).length))) ∧
    ∀ (input : List UInt8 → List UInt8) (target : List UInt8) (slen : ℕ) (s : List UInt8),
      Behind input →
      (∀ t, t.length = target.length → (input t).length = (input target).length) →
      Given (input target) slen s → target ≠ [] →
      ∃ r, b64Decode input target target.length slen = some r ∧
        (contents r).length = target.length ∧
        (returned r = -1 ∨ ∃ bytes, payload 0 0 s = some bytes ∧ bytes ++ [0] <+: contents r ∧
          (bytes.length < 2 ^ 31 → returned r = bytes.length)) :=
  ⟨fun _ _ _ _ _ h hne hsmall hcoded hdecoded ↦
      b64Decode_b64Encode fresh h hne hsmall hcoded hdecoded,
    fun source _ _ _ h ↦ b64Encode_reports fresh source h,
    fun _ _ _ _ hinput hlen h hpos ↦ b64Decode_reports hinput hlen h hpos⟩

/-- Two bytes from a string and back, and the decoder in place. -/
theorem b64_codec_two :
    (∃ r₁ r₂, b64Encode (fun _ ↦ 7) (some [77, 97, 0]) [1, 1, 1, 1] 4 0 = some r₁ ∧
      b64Decode (fun _ ↦ contents r₁) [2, 2, 2] 3 (sizeT (returned r₁)) = some r₂ ∧
      returned r₂ = 2 ∧ (contents r₂).take 2 = [77, 97]) ∧
    (∃ r, b64Encode (fun _ ↦ 7) none [77, 97, 0] 3 0 = some r ∧ (contents r).length = 3 ∧
      (returned r = -1 ∨ b64Text [77, 97] <+: contents r ∧
        ((b64Text [77, 97]).length < 2 ^ 31 → returned r = (b64Text [77, 97]).length))) ∧
    ∃ r, b64Decode (fun t ↦ t.drop 1) [32, 84, 81, 61] 4 3 = some r ∧ (contents r).length = 4 ∧
      (returned r = -1 ∨ ∃ bytes, payload 0 0 [84, 81, 61] = some bytes ∧
        bytes ++ [0] <+: contents r ∧ (bytes.length < 2 ^ 31 → returned r = bytes.length)) := by
  have hstring : Given [77, 97, 0] 0 [77, 97] := ⟨2, by decide, by decide, rfl⟩
  have htext : Given [84, 81, 61] 3 [84, 81, 61] := ⟨3, by decide, rfl, rfl⟩
  obtain ⟨hround, hencode, hdecode⟩ := b64_codec fun _ ↦ 7
  refine ⟨?_, ?_, ?_⟩
  · exact hround [77, 97, 0] 0 [77, 97] [1, 1, 1, 1] [2, 2, 2] hstring (by decide) (by decide)
      (by decide) (by decide)
  · exact hencode none [77, 97, 0] 0 [77, 97] hstring
  · refine hdecode (fun t ↦ t.drop 1) [32, 84, 81, 61] 3 [84, 81, 61] (behind_drop 1) ?_ htext
      (by decide)
    intro t ht
    rw [List.length_drop, List.length_drop, ht]

/-- Any number of zeros, with room for their text. -/
theorem b64Encode_zeros {m : ℕ} (hn : n ≠ 0) (hm : 4 * ((n + 2) / 3) ≤ m) :
    ∃ r, b64Encode (fun _ ↦ 0) (some (List.replicate n 0)) (List.replicate m 0) m n = some r ∧
      b64Text (List.replicate n 0) <+: contents r ∧
      returned r = (Int32.ofNat (4 * ((n + 2) / 3))).toInt ∧
      (b64Text (List.replicate n 0)).length = 4 * ((n + 2) / 3) := by
  have hgiven : Given (List.replicate n 0) n (List.replicate n 0) :=
    ⟨n, by simp, if_neg hn, by simp⟩
  have hlength : (b64Text (List.replicate n 0)).length = 4 * ((n + 2) / 3) := by
    rw [length_b64Text, List.length_replicate]
  obtain ⟨r, hencode, hr⟩ :=
    b64Encode_encoded (fun _ ↦ 0) (some (List.replicate n 0)) (List.replicate m 0) hgiven
  rw [List.length_replicate] at hencode hr
  rcases hr with ⟨t, rfl, -, hpre, -⟩ | ⟨hlt, -⟩
  · exact ⟨_, hencode, hpre, by rw [returned, hlength], hlength⟩
  · omega

/-- The number of characters for 2 GiB is not an `int`. -/
theorem b64Encode_overflows :
    ∃ r, b64Encode (fun _ ↦ 0) (some (List.replicate (2 ^ 31) 0)) (List.replicate (2 ^ 32) 0)
        (2 ^ 32) (2 ^ 31) = some r ∧
      b64Text (List.replicate (2 ^ 31) 0) <+: contents r ∧ returned r ≠ -1 ∧
      returned r ≠ (b64Text (List.replicate (2 ^ 31) 0)).length := by
  obtain ⟨r, hencode, hpre, hret, hlength⟩ :=
    b64Encode_zeros (n := 2 ^ 31) (m := 2 ^ 32) (by decide) (by decide)
  have hvalue : (Int32.ofNat (4 * ((2 ^ 31 + 2) / 3))).toInt = -1431655764 := by decide
  rw [hvalue] at hret
  refine ⟨r, hencode, hpre, ?_, ?_⟩
  · rw [hret]
    decide
  · rw [hret, hlength]
    decide

end Synchronet.Encode
