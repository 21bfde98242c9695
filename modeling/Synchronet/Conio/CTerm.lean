import Mathlib.Data.List.TakeDrop
import Synchronet.Lib.Words
import Synchronet.Xpdev.Genwrap

/-!
# The terminal emulation (cterm.c)

`cterm_write` with what decides the attributes of the characters it displays: escape sequences are
gathered byte by byte, and SGR sets the attribute.  Other sequences, the cursor, palettes and
extended colours are left out.
-/

namespace Synchronet.Conio

open Xpdev

inductive Legal
  | broken
  | incomplete
  | complete
  deriving DecidableEq

/-- `" !\"#$%&'()*+,-./"`. -/
def isIntermediate (c : UInt8) : Bool := 0x20 ≤ c ∧ c ≤ 0x2f

/-- `"0123456789:;<=>?"`. -/
def isParameter (c : UInt8) : Bool := 0x30 ≤ c ∧ c ≤ 0x3f

/-- `<` to `?` in front of the parameters. -/
def isPrivate (c : UInt8) : Bool := 0x3c ≤ c ∧ c ≤ 0x3f

/-- The parameters of a control sequence, which may be private ones. -/
def inParams (seq : Str) (c : UInt8) : Bool :=
  isParameter c && (isPrivate (seq.getD 1 0) || !isPrivate c)

/-- What follows `ESC`. -/
def legalSequence (seq : Str) (maxLen : ℕ) : Legal :=
  let unfinished := if maxLen ≤ seq.length then .broken else .incomplete
  match seq.dropWhile isIntermediate with
  | [] => unfinished
  | c :: _ =>
      if c < 0x30 ∨ 0x7e < c then .broken
      else if seq.head? = some 0x5b then
        match ((seq.drop 1).dropWhile (inParams seq)).dropWhile isIntermediate with
        | [] => unfinished
        | c :: _ => if c < 0x40 ∨ 0x7e < c then .broken else .complete
      else .complete

/-- `while(*start == '0' && start[1]) start++;` -/
def stripZeros : Str → Str
  | 0x30 :: c :: s => stripZeros (c :: s)
  | s => s

/-- `none` for a parameter that cannot be read, `some none` for `UINT64_MAX`, which stands for the
default. -/
def paramInt (param : Str) : Option (Option ℕ) :=
  if param = [] ∨ param.head? = some 0x3a then some none
  else
    let n := (param.takeWhile isdigit).foldl (fun n c ↦ 10 * n + (c.toNat - 0x30)) 0
    if 2 ^ 64 - 1 ≤ n then none else some (some n)

/-- Without a private extension. -/
def parseParameters (str : Str) : Option (List (Option ℕ)) :=
  if str.all fun c ↦ 0x30 ≤ c ∧ c ≤ 0x3b then
    (if str = [] then [] else str.splitOn 0x3b).mapM fun param ↦ paramInt (stripZeros param)
  else none

def seqDefault (params : List (Option ℕ)) (index val : ℕ) : List (Option ℕ) :=
  if params.length ≤ index then
    params ++ List.replicate (index - params.length) none ++ [some val]
  else if params.getD index none = none then params.set index (some val)
  else params

/-- The colours of SGR as attributes have them. -/
def sgrColour (n : ℕ) : UInt8 := ([0, 4, 2, 6, 1, 5, 3, 7] : List UInt8).getD n 0

/-- One parameter of SGR.  27, which changes the counter of the loop, and the extended colours 38
and 48 are left out. -/
def sgr (normattr attr : UInt8) : Option ℕ → Option UInt8
  | none => some attr
  | some n =>
      if n = 0 then some normattr
      else if n = 1 then some (attr ||| 8)
      else if n = 2 ∨ n = 22 then some (attr &&& 247)
      else if n = 5 ∨ n = 6 then some (attr ||| 128)
      else if n = 7 then some ((attr <<< (4 : UInt8) &&& 0x70) ||| ((attr &&& 112) >>> (4 : UInt8)))
      else if n = 8 then some ((attr &&& 112) ||| ((attr &&& 112) >>> (4 : UInt8)))
      else if n = 25 then some (attr &&& 0x7f)
      else if n = 27 ∨ n = 38 ∨ n = 48 then none
      else if 30 ≤ n ∧ n ≤ 37 then some ((attr &&& 248) ||| sgrColour (n - 30))
      else if n = 39 then some ((attr &&& 248) ||| 7)
      else if 40 ≤ n ∧ n ≤ 47 then some ((attr &&& 143) ||| (sgrColour (n - 40) <<< (4 : UInt8)))
      else if n = 49 then some (attr &&& 143)
      else some attr

/-- `normattr` is that of the video mode; `screen` is what `ctputs` got, each character with its
attribute. -/
structure CTerm where
  sequence : Bool := false
  escbuf : Str := []
  prn : Str := []
  attr : UInt8
  normattr : UInt8
  screen : List (UInt8 × UInt8) := []
  deriving DecidableEq

/-- `uctputs(cterm, prn); prn[0]=0;` -/
def CTerm.ctputs (t : CTerm) : CTerm :=
  { t with screen := t.screen ++ t.prn.map fun c ↦ (c, t.attr), prn := [] }

/-- SGR only. -/
def doAnsi (t : CTerm) : Option CTerm :=
  let param := (t.escbuf.drop 1).takeWhile isParameter
  if t.escbuf.head? = some 0x5b ∧ (t.escbuf.drop 1).dropWhile isParameter = [0x6d] ∧
      !isPrivate (param.headD 0) then
    match parseParameters param with
    | none => some { t with escbuf := [], sequence := false }
    | some params =>
        ((seqDefault params 0 0).foldlM (sgr t.normattr) t.attr).map fun attr ↦
          { t with attr := attr, escbuf := [], sequence := false }
  else none

/-- A byte that is written in ANSI-BBS mode; broken sequences, doorway mode and the form feed are
left out. -/
def CTerm.putc (t : CTerm) (ch : UInt8) : Option CTerm :=
  if t.sequence then
    let t := { t with escbuf := t.escbuf ++ [ch] }
    match legalSequence t.escbuf 1023 with
    | .broken => none
    | .incomplete => some t
    | .complete => doAnsi t
  else if ch = 27 then some { t.ctputs with sequence := true }
  else if ch = 7 then some t.ctputs
  else if ch = 12 then none
  else if ch = 0 then some t
  else some { t with prn := t.prn ++ [ch] }

def CTerm.write (t : CTerm) (buf : Str) : Option CTerm := (buf.foldlM CTerm.putc t).map CTerm.ctputs

/-! ## Sequences of parameters -/

/-- The bytes of parameters without a private extension. -/
def IsParams (ps : Str) : Prop := ∀ c ∈ ps, 0x30 ≤ c ∧ c ≤ 0x3b

theorem isParameter_of_isParams : ∀ c : UInt8, 0x30 ≤ c ∧ c ≤ 0x3b →
    isParameter c = true ∧ isPrivate c = false :=
  Words.forall_uint8 (by decide +kernel)

theorem IsParams.inParams {ps : Str} (hps : IsParams ps) (seq : Str) :
    ∀ c ∈ ps, inParams seq c = true := by
  intro c hc
  obtain ⟨hparam, hprivate⟩ := isParameter_of_isParams c (hps c hc)
  simp [Conio.inParams, hparam, hprivate]

theorem legalSequence_params {ps : Str} (hps : IsParams ps) (hlen : ps.length < 1022) :
    legalSequence (0x5b :: ps) 1023 = .incomplete := by
  have hdrop : ps.dropWhile (inParams (0x5b :: ps)) = [] :=
    List.dropWhile_eq_nil_iff.mpr (hps.inParams _)
  have hshort : ¬ 1023 ≤ (0x5b :: ps).length := by
    rw [List.length_cons]
    omega
  have hbracket : (0x5b :: ps).dropWhile isIntermediate = 0x5b :: ps := rfl
  rw [legalSequence, hbracket]
  simp only [List.head?_cons, if_true, List.drop_one, List.tail_cons, hdrop, List.dropWhile_nil,
    if_neg hshort]
  rfl

theorem legalSequence_final {ps : Str} (hps : IsParams ps) :
    legalSequence (0x5b :: (ps ++ [0x6d])) 1023 = .complete := by
  have hdrop : (ps ++ [0x6d]).dropWhile (inParams (0x5b :: (ps ++ [0x6d]))) = [0x6d] := by
    rw [List.dropWhile_append_of_pos (hps.inParams _)]
    rfl
  have hbracket : (0x5b :: (ps ++ [0x6d])).dropWhile isIntermediate = 0x5b :: (ps ++ [0x6d]) := rfl
  rw [legalSequence, hbracket]
  simp only [List.head?_cons, if_true, List.drop_one, List.tail_cons, hdrop]
  rfl

/-- A sequence is gathered until its last byte. -/
theorem foldlM_params {t : CTerm} {ps : Str} (more : Str) (hseq : t.sequence = true)
    (hesc : t.escbuf = 0x5b :: more) (hps : IsParams (more ++ ps))
    (hlen : (more ++ ps).length < 1022) :
    ps.foldlM CTerm.putc t = some { t with escbuf := 0x5b :: (more ++ ps) } := by
  induction ps generalizing more t with
  | nil =>
      rw [List.append_nil, ← hesc]
      rfl
  | cons c ps ih =>
      have hmore : more ++ c :: ps = (more ++ [c]) ++ ps := by simp
      rw [hmore] at hps hlen ⊢
      have hfirst : IsParams (more ++ [c]) := fun b hb ↦ hps b (List.mem_append_left ps hb)
      have hshort : (more ++ [c]).length < 1022 := by
        rw [List.length_append] at hlen
        omega
      have hputc : t.putc c = some { t with escbuf := 0x5b :: (more ++ [c]) } := by
        simp [CTerm.putc, hseq, hesc, legalSequence_params hfirst hshort]
      rw [List.foldlM_cons, hputc]
      exact ih (t := { t with escbuf := 0x5b :: (more ++ [c]) }) (more ++ [c]) hseq rfl hps hlen

/-- A whole sequence. -/
theorem foldlM_sequence {t : CTerm} {ps : Str} (hseq : t.sequence = false) (hesc : t.escbuf = [])
    (hps : IsParams ps) (hlen : ps.length < 1022) :
    (27 :: 0x5b :: (ps ++ [0x6d])).foldlM CTerm.putc t =
      doAnsi { t.ctputs with sequence := true, escbuf := 0x5b :: (ps ++ [0x6d]) } := by
  have hfirst : t.putc 27 = some { t.ctputs with sequence := true } := by
    simp [CTerm.putc, hseq]
  have hbracket : CTerm.putc { t.ctputs with sequence := true } 0x5b =
      some { t.ctputs with sequence := true, escbuf := [0x5b] } := by
    have hlegal : legalSequence [0x5b] 1023 = .incomplete := by decide
    simp [CTerm.putc, CTerm.ctputs, hesc, hlegal]
  have hparams : ps.foldlM CTerm.putc { t.ctputs with sequence := true, escbuf := [0x5b] } =
      some { t.ctputs with sequence := true, escbuf := 0x5b :: ps } :=
    foldlM_params [] rfl rfl hps hlen
  have hlast : CTerm.putc { t.ctputs with sequence := true, escbuf := 0x5b :: ps } 0x6d =
      doAnsi { t.ctputs with sequence := true, escbuf := 0x5b :: (ps ++ [0x6d]) } := by
    simp [CTerm.putc, legalSequence_final hps]
  rw [List.foldlM_cons, hfirst, Option.bind_eq_bind, Option.bind_some, List.foldlM_cons, hbracket,
    Option.bind_eq_bind, Option.bind_some, List.foldlM_append, hparams]
  simpa using hlast

/-! ## Chunks -/

/-- Nothing waits in `prn` while a sequence is gathered. -/
def CTerm.Good (t : CTerm) : Prop := t.sequence = true → t.prn = []

theorem CTerm.ctputs_ctputs (t : CTerm) : t.ctputs.ctputs = t.ctputs := by
  simp [CTerm.ctputs]

theorem CTerm.ctputs_eq_self {t : CTerm} (h : t.prn = []) : t.ctputs = t := by
  cases t
  simp_all [CTerm.ctputs]

theorem CTerm.good_ctputs (t : CTerm) : t.ctputs.Good := fun _ ↦ rfl

theorem doAnsi_prn {t t' : CTerm} (h : doAnsi t = some t') : t'.prn = t.prn := by
  rw [doAnsi] at h
  split at h
  · split at h
    · cases h
      rfl
    · obtain ⟨attr, -, rfl⟩ := Option.map_eq_some_iff.mp h
      rfl
  · cases h

/-- The bytes outside of sequences. -/
theorem CTerm.putc_text {t : CTerm} (h : t.sequence = false) (ch : UInt8) :
    t.putc ch = if ch = 27 then some { t.ctputs with sequence := true }
      else if ch = 7 then some t.ctputs
      else if ch = 12 then none
      else if ch = 0 then some t
      else some { t with prn := t.prn ++ [ch] } := by
  simp [CTerm.putc, h]

theorem CTerm.putc_prn {t t' : CTerm} {ch : UInt8} (hseq : t.sequence = true)
    (h : t.putc ch = some t') : t'.prn = t.prn := by
  simp only [CTerm.putc, hseq, if_true] at h
  split at h
  · cases h
  · cases h
    rfl
  · have hprn := doAnsi_prn h
    exact hprn

theorem CTerm.good_putc {t t' : CTerm} {ch : UInt8} (hgood : t.Good) (h : t.putc ch = some t') :
    t'.Good := by
  by_cases hseq : t.sequence = true
  · exact fun _ ↦ (CTerm.putc_prn hseq h).trans (hgood hseq)
  · rw [CTerm.putc_text (by simpa using hseq)] at h
    split_ifs at h <;> cases h
    · exact fun _ ↦ rfl
    · exact fun _ ↦ rfl
    · exact hgood
    · exact fun hsequence ↦ absurd hsequence hseq

theorem CTerm.good_foldlM {t t' : CTerm} {buf : Str} (hgood : t.Good)
    (h : buf.foldlM CTerm.putc t = some t') : t'.Good := by
  induction buf generalizing t with
  | nil =>
      cases h
      exact hgood
  | cons ch buf ih =>
      rw [List.foldlM_cons] at h
      obtain ⟨u, hu, hrest⟩ := Option.bind_eq_some_iff.mp h
      exact ih (CTerm.good_putc hgood hu) hrest

/-- What waits may be displayed earlier. -/
theorem CTerm.putc_ctputs {t : CTerm} (hgood : t.Good) (ch : UInt8) :
    (t.ctputs.putc ch).map CTerm.ctputs = (t.putc ch).map CTerm.ctputs := by
  by_cases hseq : t.sequence = true
  · rw [CTerm.ctputs_eq_self (hgood hseq)]
  · have hfalse : t.sequence = false := by simpa using hseq
    rw [CTerm.putc_text hfalse, CTerm.putc_text (t := t.ctputs) hfalse]
    split_ifs <;> simp [CTerm.ctputs]

theorem CTerm.foldlM_ctputs {t : CTerm} (hgood : t.Good) (buf : Str) :
    (buf.foldlM CTerm.putc t.ctputs).map CTerm.ctputs = t.write buf := by
  induction buf generalizing t with
  | nil => simp [CTerm.write, CTerm.ctputs]
  | cons ch buf ih =>
      have hstep := CTerm.putc_ctputs hgood ch
      rw [CTerm.write, List.foldlM_cons, List.foldlM_cons]
      cases h : t.putc ch with
      | none =>
          have hnone : t.ctputs.putc ch = none := by simpa [h] using hstep
          rw [hnone]
      | some t₁ =>
          obtain ⟨t₂, h₂, heq⟩ : ∃ t₂, t.ctputs.putc ch = some t₂ ∧ t₂.ctputs = t₁.ctputs := by
            simpa [h] using hstep
          have h₁ := ih (CTerm.good_putc hgood h)
          have h₂' := ih (CTerm.good_putc t.good_ctputs h₂)
          rw [h₂]
          change (buf.foldlM CTerm.putc t₂).map CTerm.ctputs = _
          exact h₂'.symm.trans ((congrArg (fun u : CTerm ↦
            (buf.foldlM CTerm.putc u).map CTerm.ctputs) heq).trans h₁)

/-- Chunks of a stream display what the whole stream does. -/
theorem CTerm.write_flatten {t : CTerm} (hprn : t.prn = []) (chunks : List Str) :
    chunks.foldlM CTerm.write t = t.write chunks.flatten := by
  induction chunks generalizing t with
  | nil => simp [CTerm.write, CTerm.ctputs_eq_self hprn]
  | cons chunk chunks ih =>
      rw [List.foldlM_cons, List.flatten_cons]
      have hsplit : t.write (chunk ++ chunks.flatten) = (chunk.foldlM CTerm.putc t).bind
          fun u ↦ u.write chunks.flatten := by
        rw [CTerm.write, List.foldlM_append]
        cases chunk.foldlM CTerm.putc t <;> rfl
      rw [hsplit]
      cases h : chunk.foldlM CTerm.putc t with
      | none => simp [CTerm.write, h]
      | some u =>
          have hgood : u.Good := CTerm.good_foldlM (fun _ ↦ hprn) h
          have hwrite : t.write chunk = some u.ctputs := by simp [CTerm.write, h]
          rw [hwrite, Option.bind_eq_bind, Option.bind_some, ih rfl, CTerm.write,
            CTerm.foldlM_ctputs hgood]
          rfl

end Synchronet.Conio
