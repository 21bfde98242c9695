import Synchronet.Lib.Trim
import Synchronet.Xpdev.Genwrap
import Mathlib.Tactic.Cases

/-!
# The text of a mail between two servers (mailsrvr.c)

`sockmimetext` sends a text line by line and `smtp_thread` receives it up to a line that holds
a single dot.  The sender trims what a signed `char` does not tell from white space.
-/

namespace Synchronet.Sbbs3.MailSrvr

open Xpdev (Str truncsp)
open Smblib (cstr cstr_of_notMem)

/-! ## Sending -/

def maxLineLen : ℕ := 998

/-- `while(tlen && *(np+(tlen-1))<=' ')`, where a `char` is signed. -/
def trimSigned (line : Str) : Str := line.rdropWhile fun c ↦ c ≤ 32 ∨ 128 ≤ c

def skipByte (c : UInt8) (text : Str) : Str := if text.head? = some c then text.tail else text

/-- A line with a dot before a dot. -/
def sendLine (line : Str) : Str := (if line.head? = some 46 then [46] else []) ++ trimSigned line

/-- The loop over the message body, for the given number of lines at most. -/
def sendLoop : ℕ → Str → List Str
  | 0, _ => []
  | maxlines + 1, np =>
      if np = [] then []
      else
        let line := (np.take maxLineLen).takeWhile (· ≠ 10)
        sendLine line :: sendLoop maxlines (skipByte 10 (skipByte 13 (np.drop line.length)))

/-- `sockprintf` into a buffer of 1024 bytes.  `vsnprintf` gets two bytes less and puts a NUL at
the end of what it cuts off. -/
def sockprintf (s : Str) : Str := (if s.length < 1022 then s else s.take 1021 ++ [0]) ++ [13, 10]

/-- What `sockmimetext` sends from the end of the header on. -/
def sockmimetext (maxlines : ℕ) (msgtxt : Str) : Str :=
  sockprintf [] ++ (sendLoop maxlines msgtxt).flatMap sockprintf ++ sockprintf [46]

/-! ## Receiving -/

/-- A line, without one CR at its end, and what is left of the stream; `none` when the stream
ends first. -/
def sockreadline (len : ℕ) (stream : Str) : Option (Str × Str) :=
  let line := (stream.take (len - 1)).takeWhile (· ≠ 10)
  let buf := if line.getLast? = some 13 then line.dropLast else line
  if line.length = len - 1 then some (buf, stream.drop (len - 1))
  else if (stream.drop line.length).head? = some 10 then
    some (buf, stream.drop (line.length + 1))
  else none

inductive State
  | dataHeader
  | dataBody

/-- What `smtp_thread` writes to the message: what it makes of a header line, and, unless there
is no transfer encoding, what it makes of a line of the body. -/
structure Decoder where
  header : Str → Str
  decode : Option (Str → Str)

theorem sockreadline_length {len : ℕ} {stream buf rest : Str} (hlen : 1 < len)
    (h : sockreadline len stream = some (buf, rest)) : rest.length < stream.length := by
  simp only [sockreadline] at h
  split at h
  · case isTrue hfull =>
      obtain ⟨-, rfl⟩ := Prod.mk.inj (Option.some_inj.mp h)
      have hle := (List.takeWhile_prefix (· ≠ 10) (l := stream.take (len - 1))).length_le
      rw [List.length_take] at hle
      rw [List.length_drop]
      omega
  · split at h
    · case isTrue hlf =>
        obtain ⟨-, rfl⟩ := Prod.mk.inj (Option.some_inj.mp h)
        have hne : stream.drop ((stream.take (len - 1)).takeWhile (· ≠ 10)).length ≠ [] := by
          intro hnil
          rw [hnil] at hlf
          cases hlf
        have := List.length_pos_of_ne_nil hne
        rw [List.length_drop] at this ⊢
        omega
    · cases h

/-- The loop of `smtp_thread` from the state `DATA` on, with what is written to the message.
It gives the message and the rest of the stream behind the final dot. -/
def dataLoop (d : Decoder) (state : State) (msgtxt stream : Str) : Option (Str × Str) :=
  match _h : sockreadline 1024 stream with
  | none => none
  | some (line, rest) =>
      let buf := truncsp (cstr line)
      if buf = [46] then some (msgtxt, rest)
      else
        match state with
        | .dataHeader =>
            if buf = [] then dataLoop d .dataBody (msgtxt ++ [13, 10]) rest
            else dataLoop d .dataHeader (msgtxt ++ d.header buf) rest
        | .dataBody =>
            let p := skipByte 46 buf
            match d.decode with
            | some decode => dataLoop d .dataBody (msgtxt ++ decode p) rest
            | none => dataLoop d .dataBody (msgtxt ++ (p ++ [13, 10])) rest
  termination_by stream.length
  decreasing_by all_goals exact sockreadline_length (by decide) _h

/-! ## Lines -/

/-- The lines of a text, with or without a line feed behind the last. -/
def lines : Str → List Str
  | [] => []
  | c :: text =>
      let line := (c :: text).takeWhile (· ≠ 10)
      line :: lines (text.drop line.length)
  termination_by text => text.length
  decreasing_by simp only [List.length_drop, List.length_cons]; omega

/-- Spaces, tabs and CRs at the end of a line. -/
def trimSpace (line : Str) : Str := line.rdropWhile fun c ↦ c = 32 ∨ c = 9 ∨ c = 13

/-- The text arrives as its lines, trimmed, and the receiver stops behind the sender's dot. -/
def Transparent (maxlines : ℕ) (text : Str) : Prop :=
  ∀ (header : Str → Str) (msgtxt more : Str),
    dataLoop ⟨header, none⟩ .dataHeader msgtxt (sockmimetext maxlines text ++ more) =
      some (msgtxt ++ [13, 10] ++ (lines text).flatMap fun line ↦ trimSpace line ++ [13, 10],
        more)

/-- A line for the wire: no NUL, no line feed, short enough. -/
structure WireLine (line : Str) : Prop where
  notMem_nul : 0 ∉ line
  notMem_lf : 10 ∉ line
  length_le : line.length ≤ 1000

theorem sockprintf_wireLine {line : Str} (h : WireLine line) :
    sockprintf line = line ++ [13, 10] := by
  have := h.length_le
  rw [sockprintf, if_pos (by omega)]

theorem takeWhile_take_append {n : ℕ} {line rest : Str} (hlf : 10 ∉ line) (hlen : line.length < n) :
    ((line ++ 10 :: rest).take n).takeWhile (· ≠ 10) = line := by
  rw [List.take_append, List.take_of_length_le hlen.le]
  obtain ⟨k, hk⟩ : ∃ k, n - line.length = k + 1 := ⟨n - line.length - 1, by omega⟩
  rw [hk, List.take_succ_cons, List.takeWhile_append_of_pos]
  · simp
  · intro c hc
    simpa using fun h : c = 10 ↦ hlf (h ▸ hc)

theorem sockreadline_wireLine {line : Str} (h : WireLine line) (rest : Str) :
    sockreadline 1024 (sockprintf line ++ rest) = some (line, rest) := by
  have hlen := h.length_le
  have hlf : 10 ∉ line ++ [13] := by simpa using h.notMem_lf
  have hstream : sockprintf line ++ rest = (line ++ [13]) ++ 10 :: rest := by
    rw [sockprintf_wireLine h]
    simp
  have hline := @takeWhile_take_append (1024 - 1) _ rest hlf (by simp; omega)
  rw [hstream]
  simp only [sockreadline, hline]
  have hdrop : (line ++ [13] ++ 10 :: rest).drop ((line ++ [13]).length + 1) = rest := by
    rw [← List.drop_drop, List.drop_left]
    rfl
  rw [if_neg (by simp; omega), List.drop_left, hdrop]
  simp

/-- A line of a text, behind which the text ends or goes on with a line feed. -/
theorem exists_drop_takeWhile (text : Str) :
    ∃ rest, text = text.takeWhile (· ≠ 10) ++ rest ∧
      (rest = [] ∨ ∃ rest', rest = 10 :: rest') := by
  refine ⟨text.dropWhile (· ≠ 10), List.takeWhile_append_dropWhile.symm, ?_⟩
  cases h : text.dropWhile (· ≠ 10) with
  | nil => exact Or.inl rfl
  | cons c rest =>
      have hhead := Trim.head_dropWhile (· ≠ 10) text c (by rw [h]; rfl)
      obtain rfl : c = 10 := by simpa using hhead
      exact Or.inr ⟨rest, rfl⟩

theorem notMem_takeWhile (text : Str) : 10 ∉ text.takeWhile (· ≠ 10) := by
  intro h
  simpa using List.mem_takeWhile_imp h

theorem takeWhile_take {n : ℕ} {text : Str} (h : (text.takeWhile (· ≠ 10)).length ≤ n) :
    (text.take n).takeWhile (· ≠ 10) = text.takeWhile (· ≠ 10) := by
  obtain ⟨rest, htext, hrest⟩ := exists_drop_takeWhile text
  have hlf := notMem_takeWhile text
  generalize text.takeWhile (· ≠ 10) = line at h htext hlf
  subst htext
  have hpos : ∀ c ∈ line, (decide (c ≠ 10)) = true := by
    intro c hc
    simpa using fun heq : c = 10 ↦ hlf (heq ▸ hc)
  rw [List.take_append, List.take_of_length_le h, List.takeWhile_append_of_pos hpos]
  rcases hrest with rfl | ⟨rest', rfl⟩
  · simp
  · cases n - line.length with
    | zero => simp
    | succ k => simp

/-- The line ends are skipped. -/
theorem skipByte_drop_line (c : UInt8) (text : Str) :
    skipByte 10 (skipByte 13 ((c :: text).drop ((c :: text).takeWhile (· ≠ 10)).length)) =
      text.drop ((c :: text).takeWhile (· ≠ 10)).length := by
  obtain ⟨rest, htext, hrest⟩ := exists_drop_takeWhile (c :: text)
  generalize (c :: text).takeWhile (· ≠ 10) = line at htext
  have hdrop : (c :: text).drop line.length = rest := by
    rw [htext]
    exact List.drop_left
  have hdrop' : text.drop line.length = rest.tail := by
    rw [← hdrop, List.tail_drop, List.drop_succ_cons]
  rw [hdrop, hdrop']
  rcases hrest with rfl | ⟨rest', rfl⟩
  · rfl
  · rfl

theorem sendLoop_eq {text : Str} {maxlines : ℕ} (hlen : ∀ line ∈ lines text, line.length ≤ 998)
    (hmax : (lines text).length ≤ maxlines) :
    sendLoop maxlines text = (lines text).map sendLine := by
  fun_induction lines text generalizing maxlines with
  | case1 => cases maxlines <;> rfl
  | case2 c text line =>
      rename_i ih
      cases maxlines with
      | zero => simp at hmax
      | succ n =>
          have hline := hlen _ List.mem_cons_self
          rw [sendLoop, if_neg (by simp), maxLineLen, takeWhile_take hline]
          simp only [skipByte_drop_line]
          rw [ih (fun l hl ↦ hlen l (List.mem_cons_of_mem _ hl)) (by simpa using hmax)]
          rfl

/-! ## One line -/

theorem trimSigned_isPrefix (line : Str) : trimSigned line <+: line := List.rdropWhile_prefix _ line

theorem getLast_trimSigned (line : Str) : ∀ c ∈ (trimSigned line).getLast?, 32 < c ∧ c < 128 := by
  intro c hc
  have h := Trim.getLast_rdropWhile (fun c ↦ decide (c ≤ 32 ∨ 128 ≤ c)) line c hc
  simpa [not_or] using h

/-- A line of the text: no NUL, no line feed, at most 998 bytes. -/
structure TextLine (line : Str) : Prop where
  notMem_nul : 0 ∉ line
  notMem_lf : 10 ∉ line
  length_le : line.length ≤ 998

theorem wireLine_sendLine {line : Str} (h : TextLine line) : WireLine (sendLine line) := by
  have hmem : ∀ c, c ∈ sendLine line → c = 46 ∨ c ∈ line := by
    intro c hc
    rcases List.mem_append.mp hc with hc | hc
    · split at hc
      · exact Or.inl (by simpa using hc)
      · cases hc
    · exact Or.inr ((trimSigned_isPrefix line).subset hc)
  constructor
  case notMem_nul => exact fun hc ↦ (hmem 0 hc).elim (by decide) h.notMem_nul
  case notMem_lf => exact fun hc ↦ (hmem 10 hc).elim (by decide) h.notMem_lf
  case length_le =>
      have hlen := (trimSigned_isPrefix line).length_le
      have hle := h.length_le
      rw [sendLine, List.length_append]
      split <;> simp <;> omega

/-- The receiver has nothing left to trim. -/
theorem truncsp_sendLine (line : Str) : truncsp (sendLine line) = sendLine line := by
  apply Trim.rdropWhile_eq_self_of_getLast
  intro c hc
  have hrange : 32 < c ∧ c < 128 := by
    by_cases hnil : trimSigned line = []
    · rw [sendLine, hnil, List.append_nil] at hc
      split at hc
      · obtain rfl : 46 = c := by simpa using hc
        decide
      · cases hc
    · rw [sendLine, List.getLast?_append_of_ne_nil _ hnil] at hc
      exact getLast_trimSigned line c hc
  have hspace : ∀ c : UInt8, 32 < c ∧ c < 128 → Smblib.isspace c = false :=
    Words.forall_uint8 (p := fun c ↦ 32 < c ∧ c < 128 → Smblib.isspace c = false)
      (by decide +kernel)
  exact hspace c hrange

/-- A dot is not trimmed. -/
theorem head?_trimSigned_dot {line : Str} (h : line.head? = some 46) :
    ∃ rest, trimSigned line = 46 :: rest := by
  obtain ⟨rest, rfl⟩ : ∃ rest, line = 46 :: rest := by
    cases line with
    | nil => cases h
    | cons c rest => exact ⟨rest, by simpa using h⟩
  exact ⟨trimSigned rest, Trim.rdropWhile_cons_of_neg (by decide)⟩

theorem sendLine_ne_dot (line : Str) : sendLine line ≠ [46] := by
  rw [sendLine]
  split
  · case isTrue h =>
      obtain ⟨rest, hrest⟩ := head?_trimSigned_dot h
      simp [hrest]
  · case isFalse h =>
      intro heq
      rw [List.nil_append] at heq
      obtain ⟨u, hu⟩ := trimSigned_isPrefix line
      apply h
      rw [← hu, heq]
      rfl

/-- The dot that was put before a dot is taken away. -/
theorem skipByte_sendLine (line : Str) : skipByte 46 (sendLine line) = trimSigned line := by
  rw [sendLine]
  split
  · rfl
  · case isFalse h =>
      rw [List.nil_append, skipByte, if_neg]
      intro hhead
      obtain ⟨u, hu⟩ := trimSigned_isPrefix line
      apply h
      rw [← hu]
      cases hline : trimSigned line with
      | nil => simp [hline] at hhead
      | cons c rest => simpa [hline] using hhead

/-- Each line is stored as it was sent, without the white space and the 8-bit characters at its
end. -/
theorem dataLoop_line {line : Str} (h : TextLine line) (header : Str → Str) (msgtxt rest : Str) :
    dataLoop ⟨header, none⟩ .dataBody msgtxt (sockprintf (sendLine line) ++ rest) =
      dataLoop ⟨header, none⟩ .dataBody (msgtxt ++ (trimSigned line ++ [13, 10])) rest := by
  have hwire := wireLine_sendLine h
  rw [dataLoop, sockreadline_wireLine hwire]
  simp only [cstr_of_notMem hwire.notMem_nul, truncsp_sendLine, skipByte_sendLine]
  rw [if_neg (sendLine_ne_dot line)]

/-! ## The whole text -/

theorem dataLoop_lines {ls : List Str} (h : ∀ line ∈ ls, TextLine line) (header : Str → Str)
    (msgtxt rest : Str) :
    dataLoop ⟨header, none⟩ .dataBody msgtxt ((ls.map sendLine).flatMap sockprintf ++ rest) =
      dataLoop ⟨header, none⟩ .dataBody
        (msgtxt ++ ls.flatMap fun line ↦ trimSigned line ++ [13, 10]) rest := by
  induction ls generalizing msgtxt with
  | nil => simp
  | cons line ls ih =>
      have hls : ∀ l ∈ ls, TextLine l := fun l hl ↦ h l (List.mem_cons_of_mem _ hl)
      rw [List.map_cons, List.flatMap_cons, List.append_assoc,
        dataLoop_line (h line List.mem_cons_self), ih hls, List.flatMap_cons, List.append_assoc]

theorem wireLine_nil : WireLine [] := ⟨by simp, by simp, by simp⟩

theorem wireLine_dot : WireLine [46] := ⟨by decide, by decide, by decide⟩

/-- What arrives of a text. -/
theorem dataLoop_sockmimetext {text : Str} {maxlines : ℕ}
    (h : ∀ line ∈ lines text, TextLine line) (hmax : (lines text).length ≤ maxlines)
    (header : Str → Str) (msgtxt more : Str) :
    dataLoop ⟨header, none⟩ .dataHeader msgtxt (sockmimetext maxlines text ++ more) =
      some (msgtxt ++ [13, 10] ++
        (lines text).flatMap fun line ↦ trimSigned line ++ [13, 10], more) := by
  have hsend := sendLoop_eq (fun line hline ↦ (h line hline).length_le) hmax
  rw [sockmimetext, hsend, List.append_assoc, List.append_assoc, dataLoop,
    sockreadline_wireLine wireLine_nil]
  have hnil : truncsp (cstr []) = [] := rfl
  simp only [hnil]
  rw [if_neg (by simp), if_pos trivial, dataLoop_lines h, dataLoop, sockreadline_wireLine wireLine_dot]
  have hdot : truncsp (cstr [46]) = [46] := rfl
  simp only [hdot]
  rw [if_pos trivial]

theorem mem_lines {text line : Str} (h : line ∈ lines text) : 10 ∉ line ∧ ∀ c ∈ line, c ∈ text := by
  fun_induction lines text with
  | case1 => cases h
  | case2 c text first =>
      rename_i ih
      rcases List.mem_cons.mp h with rfl | hrest
      · refine ⟨notMem_takeWhile (c :: text), fun d hd ↦ ?_⟩
        exact (List.takeWhile_prefix _).subset hd
      · refine ⟨(ih hrest).1, fun d hd ↦ ?_⟩
        exact List.mem_cons_of_mem _ (List.mem_of_mem_drop ((ih hrest).2 d hd))

/-- Both trim the same when what white space leaves ends in a printable ASCII character. -/
theorem trimSigned_eq_iff (line : Str) :
    trimSigned line = trimSpace line ↔ ∀ c ∈ (trimSpace line).getLast?, 32 < c ∧ c < 128 := by
  constructor
  · intro h
    rw [← h]
    exact getLast_trimSigned line
  · intro h
    obtain ⟨ws, hws, hspace⟩ :=
      Trim.exists_rdropWhile_append (fun c ↦ decide (c = 32 ∨ c = 9 ∨ c = 13)) line
    change line = trimSpace line ++ ws at hws
    have htrim : ∀ c ∈ ws, (decide (c ≤ 32 ∨ 128 ≤ c)) = true := by
      intro c hc
      have hc' : c = 32 ∨ c = 9 ∨ c = 13 := by simpa using hspace c hc
      rcases hc' with rfl | rfl | rfl <;> rfl
    rw [trimSigned]
    conv_lhs => rw [hws]
    rw [Trim.rdropWhile_append htrim]
    apply Trim.rdropWhile_eq_self_of_getLast
    intro c hc
    simpa [not_or] using h c hc

theorem crlf_injective {a b x y : Str} (ha : 10 ∉ a) (hb : 10 ∉ b)
    (h : a ++ [13, 10] ++ x = b ++ [13, 10] ++ y) : a = b ∧ x = y := by
  have htake : ∀ (s t : Str), 10 ∉ s → (s ++ [13, 10] ++ t).takeWhile (· ≠ 10) = s ++ [13] := by
    intro s t hs
    have hpos : ∀ c ∈ s, (decide (c ≠ 10)) = true := by
      intro c hc
      simpa using fun heq : c = 10 ↦ hs (heq ▸ hc)
    rw [List.append_assoc, List.takeWhile_append_of_pos hpos]
    rfl
  have hab : a ++ [13] = b ++ [13] := by rw [← htake a x ha, h, htake b y hb]
  obtain rfl : a = b := List.append_cancel_right hab
  exact ⟨rfl, List.append_cancel_left h⟩

/-- A text of lines has no other lines. -/
theorem flatMap_crlf_injective {f g : Str → Str} {ls : List Str}
    (h : ∀ line ∈ ls, 10 ∉ f line ∧ 10 ∉ g line)
    (heq : (ls.flatMap fun line ↦ f line ++ [13, 10]) = ls.flatMap fun line ↦ g line ++ [13, 10]) :
    ∀ line ∈ ls, f line = g line := by
  induction ls with
  | nil => simp
  | cons line ls ih =>
      rw [List.flatMap_cons, List.flatMap_cons] at heq
      have hline := h line List.mem_cons_self
      obtain ⟨hfirst, hrest⟩ := crlf_injective hline.1 hline.2 heq
      intro l hl
      rcases List.mem_cons.mp hl with rfl | hl
      · exact hfirst
      · exact ih (fun m hm ↦ h m (List.mem_cons_of_mem _ hm)) hrest l hl

theorem notMem_of_isPrefix {s t : Str} {c : UInt8} (hs : s <+: t) (h : c ∉ t) : c ∉ s :=
  fun hc ↦ h (hs.subset hc)

/-- A text arrives as its lines exactly when no line ends, but for white space, in a control
character or an 8-bit character. -/
theorem transparent_iff {text : Str} {maxlines : ℕ} (hnul : 0 ∉ text)
    (hlen : ∀ line ∈ lines text, line.length ≤ 998) (hmax : (lines text).length ≤ maxlines) :
    Transparent maxlines text ↔
      ∀ line ∈ lines text, ∀ c ∈ (trimSpace line).getLast?, 32 < c ∧ c < 128 := by
  have htext : ∀ line ∈ lines text, TextLine line := fun line hline ↦
    ⟨fun h0 ↦ hnul ((mem_lines hline).2 0 h0), (mem_lines hline).1, hlen line hline⟩
  have hloop := dataLoop_sockmimetext htext hmax
  constructor
  · intro h line hline
    have hstored := (hloop id [] []).symm.trans (h id [] [])
    have heq := List.append_cancel_left (Prod.mk.inj (Option.some_inj.mp hstored)).1
    rw [← trimSigned_eq_iff]
    refine flatMap_crlf_injective (fun l hl ↦ ?_) heq line hline
    have hlf := (mem_lines hl).1
    exact ⟨notMem_of_isPrefix (trimSigned_isPrefix l) hlf,
      notMem_of_isPrefix (List.rdropWhile_prefix _ l) hlf⟩
  · intro h header msgtxt more
    have hsame : ((lines text).flatMap fun line ↦ trimSigned line ++ [13, 10]) =
        (lines text).flatMap fun line ↦ trimSpace line ++ [13, 10] := by
      refine List.flatMap_congr fun line hline ↦ ?_
      rw [(trimSigned_eq_iff line).mpr (h line hline)]
    rw [hloop header msgtxt more, hsame]

/-- A line that ends in an `é`. -/
def eightBitLine : Str := [97, 233, 13, 10]

theorem lines_eightBitLine : lines eightBitLine = [[97, 233, 13]] := by
  simp [eightBitLine, lines]

/-- The `é` is not sent. -/
theorem eightBitLine_not_transparent :
    0 ∉ eightBitLine ∧ (∀ line ∈ lines eightBitLine, line.length ≤ 998) ∧
      ¬Transparent 1 eightBitLine := by
  rw [lines_eightBitLine]
  refine ⟨by decide, by decide, fun h ↦ ?_⟩
  have htext : ∀ line ∈ lines eightBitLine, TextLine line := by
    rw [lines_eightBitLine]
    intro line hline
    obtain rfl : line = [97, 233, 13] := by simpa using hline
    exact ⟨by decide, by decide, by decide⟩
  have hmax : (lines eightBitLine).length ≤ 1 := by rw [lines_eightBitLine]; rfl
  have hstored := (dataLoop_sockmimetext htext hmax id [] []).symm.trans (h id [] [])
  rw [lines_eightBitLine] at hstored
  revert hstored
  decide +kernel

theorem transparent_iff_a :
    Transparent 1 [97] ↔ ∀ line ∈ lines [97], ∀ c ∈ (trimSpace line).getLast?, 32 < c ∧ c < 128 :=
  transparent_iff (by decide) (by simp [lines]) (by simp [lines])

end Synchronet.Sbbs3.MailSrvr
