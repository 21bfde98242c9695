import Synchronet.Smblib.Text
import Synchronet.Sbbs3.UserNumbers

/-!
# Word wrap (wordwrap.c)

`wordwrap` reads its text once from front to end, with `get_prefix` looking ahead for the quote
prefix of a line.  The line that is built has the bytes before `l`, and behind them whatever the
buffer held there before.  All requests for memory succeed.
-/

namespace Synchronet.Sbbs3.WordWrap

open Xpdev (Str)
open Smblib (isspace)

/-! ## The quote prefix -/

/-- What `get_prefix` finds: how many quote marks, in how many bytes and columns. -/
structure Quote where
  depth : ℕ
  bytes : ℕ
  len : ℕ

/-- What is expected behind a character; nothing more is read at 0.  At 6 a blank has been
dealt with before. -/
def nextExpect (expect : ℕ) (c : UInt8) : ℕ :=
  match expect with
  | 1 => if c ≠ 32 then 0 else 2
  | 2 | 3 | 4 => if c = 32 then 0 else if c = 62 then 6 else expect + 1
  | 5 => if c ≠ 62 then 0 else 6
  | _ => 0

/-- The loop of `get_prefix`, with the bytes and columns so far; none when it reads behind the
text.  A Ctrl-A code is skipped, and two Ctrl-A are one character. -/
def prefixLoop (expect bytes len : ℕ) (q : Quote) : Str → Option Quote
  | [] => some q
  | 1 :: [] => none
  | 1 :: 1 :: rest =>
      if nextExpect expect 1 = 0 then some q
      else prefixLoop (nextExpect expect 1) (bytes + 2) (len + 1) q rest
  | 1 :: _ :: rest => prefixLoop expect (bytes + 2) len q rest
  | c :: rest =>
      if c = 10 ∨ c = 13 then some q
      else if expect = 6 ∧ c = 32 then
        -- some editors don't put double spaces in between
        prefixLoop (if rest.head? = some 32 then 1 else 2) (bytes + 1) (len + 1)
          ⟨q.depth + 1, bytes + 1, len + 1⟩ rest
      else if nextExpect expect c = 0 then some q
      else prefixLoop (nextExpect expect c) (bytes + 1) (len + 1) q rest

def getPrefix (maxlen : ℕ) (text : Str) : Option Quote :=
  (prefixLoop (if text.head? = some 32 then 1 else 2) 0 0 ⟨0, 0, 0⟩ text).map fun q ↦
    if maxlen ≤ q.bytes then { q with bytes := maxlen - 1 } else q

/-- Whether `compare_prefix` finds no difference but in white space at the end. -/
def samePrefix (old new : Str) : Bool :=
  if new.length < old.length then
    old.take new.length = new ∧ (old.drop new.length).all isspace
  else new.take old.length = old ∧ (new.drop old.length).all isspace

/-! ## The line -/

/-- The arguments but for the text. -/
structure Width where
  len : Int32
  oldlen : Int32
  handleQuotes : Bool

/-- `len*2+2` -/
def Width.limit (w : Width) : ℤ := (w.len * 2 + 2).toInt

/-- The variables of `wordwrap`.  `linebuf` is `line` up to `l`, with `stale` behind it. -/
structure State where
  out : Str
  line : Str
  stale : Str
  ocol : ℤ
  icol : ℤ
  crcount : ℕ
  pre : Str
  prefixBytes : ℕ
  prefixLen : ℕ
  oldPrefixBytes : ℕ

namespace State

/-- `linebuf[l++]=c` -/
def push (s : State) (c : UInt8) : State :=
  { s with
    line := s.line ++ [c]
    stale := s.stale.drop 1 }

/-- `l=n` in a buffer -/
def setLine (s : State) (linebuf : Str) (n : ℕ) : State :=
  { s with
    line := linebuf.take n
    stale := linebuf.drop n }

/-- The line is appended to the output with its end. -/
def flush (s : State) : State :=
  let s := (s.push 13).push 10
  { s with out := s.out ++ s.line }

/-- `l=prefix_bytes`, with the prefix copied to the line. -/
def startLine (s : State) : State :=
  s.setLine (s.pre.take s.prefixBytes ++ (s.line ++ s.stale).drop s.prefixBytes) s.prefixBytes

/-- `if(l<1 || !isspace(linebuf[l-1]))` a space is added. -/
def addSpace (s : State) : State :=
  if s.line.getLast?.any isspace then s
  else { s.push 32 with ocol := s.ocol + 1 }

end State

/-- From `l` back to a character with the property, or to the first one. -/
def backTo (p : UInt8 → Bool) (line : Str) : ℕ → ℕ
  | 0 => 0
  | l + 1 => if p (line.getD (l + 1) 0) then l + 1 else backTo p line l

/-- No Ctrl-A code is left at the end. -/
def chopCodes (line : Str) : ℕ → ℕ
  | l + 2 =>
      if line.getD l 0 = 1 ∧ line.getD (l + 1) 0 ≠ 1 then chopCodes line l else l + 2
  | l => l

/-- Where a line of `k` characters that has no white space is chopped. -/
def chop (line : Str) (k : ℕ) : ℕ :=
  let l := chopCodes line k
  let l := if 0 < l ∧ line.getD (l - 1) 0 = 1 then l - 1 else l
  l - 1

/-- The columns of a line; a Ctrl-A at its end takes what stands behind it. -/
def columns (stale : Str) : Str → ℤ
  | [] => 0
  | 1 :: 1 :: rest => columns stale rest + 1
  | 1 :: _ :: rest => columns stale rest
  | 1 :: [] => if stale.head? = some 1 then 1 else 0
  | _ :: rest => columns stale rest + 1

/-- The line is wrapped: its last word begins the next one. -/
def wrap (s : State) : State :=
  let k := s.line.length
  let l := backTo isspace s.line (k - 1)
  let l := if l = 0 then chop s.line k else l
  let word := s.line.drop (l + 1)
  let l := backTo (fun c ↦ !isspace c) s.line l
  let linebuf := s.line ++ s.stale
  let moved := s.setLine
    (linebuf.take s.prefixBytes ++ word ++ linebuf.drop (s.prefixBytes + word.length))
    (s.prefixBytes + word.length)
  { moved with
    out := s.out ++ s.line.take (l + 1) ++ [13, 10]
    ocol := s.prefixLen + 1 + columns moved.stale word }

/-- A character, behind which the line may have to be wrapped. -/
def putChar (w : Width) (s : State) (c : UInt8) : State :=
  let s := { s.push c with
    ocol := s.ocol + 1
    icol := s.icol + 1 }
  if w.len.toInt < s.ocol ∧ !isspace c then wrap s else s

def backspace (s : State) : State :=
  let linebuf := s.line ++ s.stale
  let l := s.line.length
  if l = 0 then s
  else if 1 < l ∧ s.line.getD (l - 2) 0 = 1 then
    let double := s.line.getD (l - 1) 0 = 1
    { s.setLine linebuf (l - 2) with
      ocol := if double then s.ocol - 1 else s.ocol
      icol := if double then s.icol - 1 else s.icol }
  else
    { s.setLine linebuf (l - 1) with
      ocol := s.ocol - 1
      icol := s.icol - 1 }

/-- `while(col%8) col++` -/
def nextTab (col : ℤ) : ℤ := col + -col % 8

def tab (s : State) : State :=
  { s.push 9 with
    ocol := nextTab (s.ocol + 1)
    icol := nextTab (s.icol + 1) }

/-- A prefix that is more than two thirds of the line becomes ` %d> `. -/
def setPrefix (w : Width) (s : State) (q : Quote) (text : Str) : State :=
  if w.len.toInt.tdiv 3 * 2 < q.len then
    let hacked := 32 :: ultoa q.depth 10 ++ [62, 32]
    { s with
      pre := hacked ++ 0 :: s.pre.drop (hacked.length + 1)
      prefixBytes := hacked.length
      prefixLen := hacked.length }
  else { s with pre := text ++ 0 :: s.pre.drop (text.length + 1) }

/-- A new prefix is copied to the next line. -/
def newPrefix (w : Width) (s : State) (q : Quote) (text : Str) : State :=
  let s := ((setPrefix w s q text).flush).startLine
  { s with
    ocol := s.prefixLen + 1
    oldPrefixBytes := s.prefixBytes }

/-- The end of a line, with its new prefix and what follows that. -/
def newline (w : Width) (s : State) (q : Quote) (text rest : Str) : State :=
  let s :=
    if rest = [] then { s.flush.setLine (s.flush.line ++ s.flush.stale) 0 with ocol := 1 }
    else if !samePrefix (s.pre.take s.oldPrefixBytes) text then newPrefix w s q text
    else if rest.head?.any isspace then
      -- the next line starts with white space: a hard CR
      { s.flush.setLine (s.flush.line ++ s.flush.stale) s.prefixBytes with
        ocol := s.prefixLen + 1 }
    else if s.icol < w.oldlen.toInt then
      let k := (rest.takeWhile fun c ↦ !isspace c).length
      if s.icol + k + 1 < w.oldlen.toInt then
        -- the next word would have fit: a hard CR
        if w.handleQuotes then { s.flush.startLine with ocol := s.prefixLen + 1 }
        else
          { s.flush.setLine (s.flush.line ++ s.flush.stale) s.prefixBytes with
            ocol := s.prefixLen + 1 }
      else s.addSpace
    else s.addSpace
  { s with icol := s.prefixLen + 1 }

/-- What happens at every character first; none when the line ends before its buffer. -/
def begin (w : Width) (s : State) : Option State :=
  let s := if w.oldlen = 0 then { s with icol := -256 } else s
  if w.limit ≤ s.line.length then
    let l := s.line.length - 4
    if s.line.length < 4 then none
    else some (s.setLine (s.line.take l ++ 0 :: (s.line ++ s.stale).drop (l + 1)) l)
  else some s

/-- The prefix of the next line, where the limit is positive; without `handle_quotes` there is
none. -/
def quoteOf (w : Width) (text : Str) : Option Quote :=
  if w.handleQuotes then getPrefix w.limit.toNat text else some ⟨0, 0, 0⟩

/-- How many bytes of the text are passed over. -/
def Quote.skip (q : Quote) : ℕ := if q.depth = 0 then 0 else q.bytes

/-- The loop over the text; none when it reads behind it. -/
def wrapLoop (w : Width) (s : State) : Str → Option State
  | [] => some s
  | c :: rest => do
      let s ← begin w s
      if c = 10 then
        let q ← quoteOf w rest
        let s := if w.handleQuotes then
          { s with
            prefixBytes := q.bytes
            prefixLen := q.len } else s
        wrapLoop w (newline w s q (rest.take q.skip) (rest.drop q.skip)) (rest.drop q.skip)
      else if c = 13 then wrapLoop w { s with crcount := s.crcount + 1 } rest
      else if c = 31 then wrapLoop w s rest
      else if c = 8 then wrapLoop w (backspace s) rest
      else if c = 9 then wrapLoop w (tab s) rest
      else if c = 1 then
        match rest with
        | [] => none
        | a :: rest =>
            wrapLoop w (if a = 1 then putChar w (s.push 1) 1 else (s.push 1).push a) rest
      else wrapLoop w (putChar w s c) rest
  termination_by text => text.length

/-- The loop that takes out the CRs; it goes on behind what has moved up. -/
def stripCrs : Str → Str
  | [] => []
  | 13 :: [] => []
  | 13 :: c :: rest => c :: stripCrs rest
  | c :: rest => c :: stripCrs rest

/-- The prefix of the first line (ouch). -/
def firstPrefix (w : Width) (s : State) (q : Quote) (text : Str) : State :=
  if w.handleQuotes ∧ q.depth ≠ 0 then
    let s := (setPrefix w
      { s with
        prefixBytes := q.bytes
        prefixLen := q.len } q (text.take q.bytes)).startLine
    { s with
      ocol := s.prefixLen + 1
      icol := s.prefixLen + 1
      oldPrefixBytes := s.prefixBytes }
  else s

/-- `wordwrap` with the contents of the memory that it is given; none when it reads behind the
text or writes before a buffer. -/
def wordwrap (w : Width) (linebuf pre text : Str) : Option Str := do
  let q ← quoteOf w text
  let s := firstPrefix w ⟨[], [], linebuf, 1, 1, 0, 0 :: pre.drop 1, 0, 0, 0⟩ q text
  let s ← wrapLoop w s (text.drop q.skip)
  let s := if s.line = [] then s else s.flush
  return if s.crcount = 0 then stripCrs s.out else s.out

/-! ## Where it reads -/

/-- Every Ctrl-A has its code, read from the front. -/
def paired : Str → Bool
  | [] => true
  | 1 :: [] => false
  | 1 :: _ :: rest => paired rest
  | _ :: rest => paired rest

variable {w : Width} {s : State} {q : Quote} {c : UInt8} {front rest text : Str}
  {expect bytes len maxlen : ℕ}

/-- A character for which neither pattern with a Ctrl-A is taken. -/
theorem ne_ctrlA (h : c = 1 → rest = [] → False) (h' : ∀ a s, c = 1 → rest = a :: s → False) :
    c ≠ 1 := by
  intro hc
  cases rest with
  | nil => exact h hc rfl
  | cons a rest => exact h' a rest hc rfl

theorem paired_cons (hc : c ≠ 1) (rest : Str) : paired (c :: rest) = paired rest := by
  rw [paired] <;> simp [hc]

/-- What stands before another character does not matter: that character is either read by itself
or is the code of a Ctrl-A. -/
theorem paired_append (hc : c ≠ 1) (front rest : Str) :
    paired (front ++ c :: rest) = paired rest := by
  fun_induction paired front with
  | case1 => exact paired_cons hc rest
  | case2 => rfl
  | case3 a front ih => exact ih
  | case4 d front h h' ih =>
      rw [List.cons_append, paired_cons (ne_ctrlA h h'), ih]

/-- `get_prefix` reads behind the text only for a Ctrl-A without a code, and the bytes that it
counts end with a blank. -/
theorem prefixLoop_spec (expect bytes len : ℕ) (q : Quote) (text : Str) :
    (prefixLoop expect bytes len q text = none → paired text = false) ∧
      ∀ q', prefixLoop expect bytes len q text = some q' →
        q' = q ∨ ∃ front rest, text = front ++ 32 :: rest ∧
          q'.bytes = bytes + front.length + 1 := by
  fun_induction prefixLoop expect bytes len q text with
  | case1 => exact ⟨fun h ↦ (by cases h), fun q' h ↦ .inl (Option.some.inj h).symm⟩
  | case2 => exact ⟨fun _ ↦ rfl, fun q' h ↦ (by cases h)⟩
  | case3 => exact ⟨fun h ↦ (by cases h), fun q' h ↦ .inl (Option.some.inj h).symm⟩
  | case4 expect bytes len q rest hexpect ih =>
      refine ⟨ih.1, fun q' h ↦ (ih.2 q' h).imp_right ?_⟩
      rintro ⟨front, rest, rfl, hbytes⟩
      exact ⟨1 :: 1 :: front, rest, rfl, by simp only [List.length_cons]; omega⟩
  | case5 expect bytes len q a rest ha ih =>
      refine ⟨ih.1, fun q' h ↦ (ih.2 q' h).imp_right ?_⟩
      rintro ⟨front, rest, rfl, hbytes⟩
      exact ⟨1 :: a :: front, rest, rfl, by simp only [List.length_cons]; omega⟩
  | case6 => exact ⟨fun h ↦ (by cases h), fun q' h ↦ .inl (Option.some.inj h).symm⟩
  | case7 expect bytes len q c rest h _ h' _ hblank ih =>
      rw [paired_cons (ne_ctrlA h h')]
      refine ⟨ih.1, fun q' hq ↦ .inr ?_⟩
      rw [hblank.2]
      rcases ih.2 q' hq with rfl | ⟨front, tail, rfl, hbytes⟩
      · exact ⟨[], rest, rfl, rfl⟩
      · exact ⟨32 :: front, tail, rfl, by rw [hbytes, List.length_cons]; omega⟩
  | case8 => exact ⟨fun h ↦ (by cases h), fun q' h ↦ .inl (Option.some.inj h).symm⟩
  | case9 expect bytes len q c rest h _ h' _ _ _ ih =>
      rw [paired_cons (ne_ctrlA h h')]
      refine ⟨ih.1, fun q' hq ↦ (ih.2 q' hq).imp_right ?_⟩
      rintro ⟨front, tail, rfl, hbytes⟩
      exact ⟨c :: front, tail, rfl, by rw [hbytes, List.length_cons]; omega⟩

theorem paired_drop {n : ℕ} (h : n ≤ front.length + 1) :
    paired ((front ++ 32 :: rest).drop n) = paired (front ++ 32 :: rest) := by
  have hblank : (32 : UInt8) ≠ 1 := by decide
  rw [paired_append hblank]
  rcases Nat.lt_or_ge front.length n with hlt | hle
  · obtain rfl : n = front.length + 1 := by omega
    rw [← List.drop_drop, List.drop_left]
    rfl
  · rw [List.drop_append_of_le_length hle, paired_append hblank]

/-- The bytes that are passed over for a prefix do not part a Ctrl-A at the end from its code. -/
theorem quoteOf_spec (w : Width) (text : Str) :
    (quoteOf w text = none → paired text = false) ∧
      ∀ q, quoteOf w text = some q → paired (text.drop q.skip) = paired text := by
  rw [quoteOf]
  by_cases hquotes : w.handleQuotes
  · rw [if_pos hquotes, getPrefix]
    obtain ⟨hnone, hsome⟩ :=
      prefixLoop_spec (if text.head? = some 32 then 1 else 2) 0 0 ⟨0, 0, 0⟩ text
    refine ⟨fun h ↦ hnone (Option.map_eq_none_iff.mp h), fun q h ↦ ?_⟩
    obtain ⟨q', hq', rfl⟩ := Option.map_eq_some_iff.mp h
    rcases hsome q' hq' with rfl | ⟨front, rest, rfl, hbytes⟩
    · have hskip : Quote.skip (if w.limit.toNat ≤ 0 then ⟨0, w.limit.toNat - 1, 0⟩
          else ⟨0, 0, 0⟩) = 0 := by
        split <;> rfl
      rw [hskip, List.drop_zero]
    · have hskip (q : Quote) : q.skip ≤ q.bytes := by
        rw [Quote.skip]
        split
        · exact Nat.zero_le _
        · exact le_rfl
      apply paired_drop
      refine (hskip _).trans ?_
      split
      · change w.limit.toNat - 1 ≤ _
        omega
      · omega
  · rw [if_neg hquotes]
    refine ⟨fun h ↦ (by cases h), fun q h ↦ ?_⟩
    obtain rfl := Option.some.inj h
    rfl

theorem exists_begin (hlimit : 4 ≤ w.limit) (s : State) : ∃ s', begin w s = some s' := by
  simp only [begin]
  generalize (if w.oldlen = 0 then { s with icol := -256 } else s : State) = s₀
  by_cases hlong : w.limit ≤ s₀.line.length
  · rw [if_pos hlong, if_neg (by omega)]
    exact ⟨_, rfl⟩
  · rw [if_neg hlong]
    exact ⟨_, rfl⟩

/-- The loop reads behind the text exactly when a Ctrl-A at its end has no code. -/
theorem wrapLoop_isSome_iff (hlimit : 4 ≤ w.limit) (s : State) (text : Str) :
    (wrapLoop w s text).isSome ↔ paired text = true := by
  induction hlen : text.length using Nat.strong_induction_on generalizing s text with
  | _ n ih =>
      subst hlen
      cases text with
      | nil => rw [wrapLoop]; exact iff_of_true rfl rfl
      | cons c rest =>
          have hrest (s : State) : (wrapLoop w s rest).isSome ↔ paired rest = true :=
            ih _ (Nat.lt_succ_self _) s rest rfl
          obtain ⟨s', hbegin⟩ := exists_begin hlimit s
          rw [wrapLoop, hbegin, Option.bind_eq_bind, Option.bind_some]
          by_cases hctrl : c = 1
          · subst hctrl
            cases rest with
            | nil => exact iff_of_false (by simp) (by simp [paired])
            | cons a rest =>
                rw [paired]
                · exact ih _ (by simp only [List.length_cons]; omega) _ rest rfl
          · rw [paired_cons hctrl]
            by_cases hnl : c = 10
            · subst hnl
              obtain ⟨hnone, hsome⟩ := quoteOf_spec w rest
              cases hq : quoteOf w rest with
              | none => exact iff_of_false (by simp) (by simp [hnone hq])
              | some q =>
                  rw [← hsome q hq, if_pos rfl, Option.bind_eq_bind, Option.bind_some]
                  have hle := (List.drop_sublist q.skip rest).length_le
                  exact ih _ (by rw [List.length_cons]; omega) _ (rest.drop q.skip) rfl
            · simp only [if_neg hnl, if_neg hctrl]
              split
              · exact hrest _
              · split
                · exact hrest _
                · split
                  · exact hrest _
                  · split <;> exact hrest _

theorem exists_wordwrap_iff (hlimit : 4 ≤ w.limit) (linebuf pre text : Str) :
    (∃ out, wordwrap w linebuf pre text = some out) ↔ paired text = true := by
  obtain ⟨hnone, hsome⟩ := quoteOf_spec w text
  rw [wordwrap]
  cases hq : quoteOf w text with
  | none => exact iff_of_false (by simp) (by simp [hnone hq])
  | some q =>
      rw [← hsome q hq, ← wrapLoop_isSome_iff hlimit, Option.isSome_iff_exists]
      simp only [Option.bind_eq_bind, Option.bind_some]
      constructor
      · rintro ⟨out, hout⟩
        obtain ⟨s, hs, -⟩ := Option.bind_eq_some_iff.mp hout
        exact ⟨s, hs⟩
      · rintro ⟨s, hs⟩
        rw [hs]
        exact ⟨_, rfl⟩

/-- `wordwrap` and `get_prefix` read nothing behind the text exactly when a Ctrl-A at its end has
its code. -/
theorem wordwrap_reads_iff (w : Width) (hlimit : 4 ≤ w.limit) (linebuf pre text : Str) :
    ((∃ out, wordwrap w linebuf pre text = some out) ∧
      ∀ maxlen, ∃ q, getPrefix maxlen text = some q) ↔ paired text = true := by
  rw [exists_wordwrap_iff hlimit, and_iff_left_iff_imp]
  intro hpaired maxlen
  obtain ⟨hnone, -⟩ :=
    prefixLoop_spec (if text.head? = some 32 then 1 else 2) 0 0 ⟨0, 0, 0⟩ text
  rw [getPrefix]
  cases hloop : prefixLoop (if text.head? = some 32 then 1 else 2) 0 0 ⟨0, 0, 0⟩ text with
  | none =>
      rw [hnone hloop] at hpaired
      cases hpaired
  | some q => exact ⟨_, rfl⟩

/-- A high-intensity A on lines of 79 columns, with quotes. -/
theorem wordwrap_reads_high :
    ((∃ out, wordwrap ⟨79, 79, true⟩ [] [] [1, 72, 65] = some out) ∧
      ∀ maxlen, ∃ q, getPrefix maxlen [1, 72, 65] = some q) ↔ paired [1, 72, 65] = true :=
  wordwrap_reads_iff ⟨79, 79, true⟩ (by decide) [] [] [1, 72, 65]

/-- The last byte is a Ctrl-A. -/
theorem not_wordwrap_reads : ¬∃ out, wordwrap ⟨79, 79, false⟩ [] [] [65, 1] = some out := by
  have hlimit : 4 ≤ Width.limit ⟨79, 79, false⟩ := by decide
  rw [exists_wordwrap_iff hlimit]
  decide

end Synchronet.Sbbs3.WordWrap
