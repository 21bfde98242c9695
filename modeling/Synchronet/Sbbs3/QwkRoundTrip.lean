import Synchronet.Sbbs3.QwkText

/-!
# The round trip of a QWK text

The importer walks through lines until it finds three dashes in the columns 1 to 3, counted
modulo 256, before a space or a line end.  Up to there it makes the body, from there on the
tail.
-/

namespace Synchronet.Sbbs3.Qwk

open Xpdev (Str truncsp strnicmp)
open Smblib (strlwr)

/-! ## Line ends in one byte and in two -/

def expandUnit (c : UInt8) : Str := if c = qwkNewline then [13, 10] else [c]

def expand (text : Str) : Str := text.flatMap expandUnit

@[simp] theorem expand_nil : expand [] = [] := rfl

@[simp] theorem expand_cons (c : UInt8) (text : Str) :
    expand (c :: text) = expandUnit c ++ expand text := rfl

@[simp] theorem expand_append (u v : Str) : expand (u ++ v) = expand u ++ expand v :=
  List.flatMap_append

theorem expandUnit_ne_nil (c : UInt8) : expandUnit c ≠ [] := by
  rw [expandUnit]
  split <;> simp

theorem expand_of_notMem {line : Str} (h : qwkNewline ∉ line) : expand line = line := by
  induction line with
  | nil => rfl
  | cons c line ih =>
      rw [List.mem_cons, not_or] at h
      rw [expand_cons, ih h.2, expandUnit, if_neg (Ne.symm h.1), List.singleton_append]

/-- A text of printable characters, CRLF line ends and single line feeds. -/
inductive PlainText : Str → Prop
  | nil : PlainText []
  | crlf {text : Str} : PlainText text → PlainText (13 :: 10 :: text)
  | lf {text : Str} : PlainText text → PlainText (10 :: text)
  | char {c : UInt8} {text : Str} : 32 ≤ c → c ≠ qwkNewline → PlainText text →
      PlainText (c :: text)

/-- What the export makes of such a text. -/
structure Blocks (text blocks : Str) : Prop where
  expand_eq : ∃ ws, expand blocks = text ++ ws ∧ ∀ c ∈ ws, Smblib.isspace c
  mem : ∀ c ∈ blocks, c = 10 ∨ 32 ≤ c
  newline_mem : qwkNewline ∈ blocks

theorem exportLoop_char {leave : Bool} {prev ch c : UInt8} {rest : Str} (hc : 32 ≤ c)
    (hn : c ≠ qwkNewline) :
    exportLoop leave prev ch (c :: rest) =
      (c :: (exportLoop leave c c rest).1, (exportLoop leave c c rest).2) := by
  have h10 : c ≠ 10 := fun h ↦ absurd (h ▸ hc) (by decide)
  have h13 : c ≠ 13 := fun h ↦ absurd (h ▸ hc) (by decide)
  have h1 : c ≠ 1 := fun h ↦ absurd (h ▸ hc) (by decide)
  rw [exportLoop, if_neg hn]
  · exact h10
  · exact h13
  · exact fun h _ ↦ h1 h
  · exact fun _ _ h _ ↦ h1 h

/-- Each line end of the text becomes one byte. -/
theorem exportLoop_plain {text : Str} (h : PlainText text) (leave : Bool) (prev ch : UInt8)
    (hprev : prev ≠ 13) :
    expand (exportLoop leave prev ch text).1 = text ∧
      (∀ c ∈ (exportLoop leave prev ch text).1, c = 10 ∨ 32 ≤ c) ∧
      ((exportLoop leave prev ch text).2 = ch ∨
        (exportLoop leave prev ch text).2 ≠ qwkNewline ∨
        qwkNewline ∈ (exportLoop leave prev ch text).1) := by
  induction h generalizing prev ch with
  | nil => simp [exportLoop]
  | crlf htext ih =>
      obtain ⟨hexp, hmem, -⟩ := ih 10 qwkNewline (by decide)
      simp only [exportLoop, if_true]
      refine ⟨?_, ?_, Or.inr (Or.inr List.mem_cons_self)⟩
      · rw [expand_cons, hexp]
        rfl
      · intro c hc
        rcases List.mem_cons.mp hc with rfl | hc
        · exact Or.inr (by decide)
        · exact hmem c hc
  | lf htext ih =>
      obtain ⟨hexp, hmem, hlast⟩ := ih 10 10 (by decide)
      simp only [exportLoop, if_neg hprev]
      refine ⟨?_, ?_, ?_⟩
      · rw [expand_cons, hexp]
        rfl
      · intro c hc
        rcases List.mem_cons.mp hc with rfl | hc
        · exact Or.inl rfl
        · exact hmem c hc
      · right
        rcases hlast with heq | hne | hin
        · exact Or.inl (by rw [heq]; decide)
        · exact Or.inl hne
        · exact Or.inr (List.mem_cons_of_mem _ hin)
  | @char c text hc hn htext ih =>
      have h13 : c ≠ 13 := fun h ↦ absurd (h ▸ hc) (by decide)
      obtain ⟨hexp, hmem, hlast⟩ := ih c c h13
      rw [exportLoop_char hc hn]
      refine ⟨?_, ?_, ?_⟩
      · rw [expand_cons, hexp, expandUnit, if_neg hn]
        rfl
      · intro d hd
        rcases List.mem_cons.mp hd with rfl | hd
        · exact Or.inr hc
        · exact hmem d hd
      · right
        rcases hlast with heq | hne | hin
        · exact Or.inl (by rw [heq]; exact hn)
        · exact Or.inl hne
        · exact Or.inr (List.mem_cons_of_mem _ hin)

theorem expand_replicate_space (n : ℕ) : expand (List.replicate n 32) = List.replicate n 32 := by
  apply expand_of_notMem
  intro h
  exact absurd (List.eq_of_mem_replicate h) (by decide)

theorem msgtoqwk_blocks {text : Str} (h : PlainText text) (leave : Bool) :
    Blocks text (msgtoqwk leave text) := by
  obtain ⟨hexp, hmem, hlast⟩ := exportLoop_plain h leave 0 0 (by decide)
  simp only [msgtoqwk]
  generalize exportLoop leave 0 0 text = r at hexp hmem hlast
  obtain ⟨out, ch⟩ := r
  simp only at hexp hmem hlast ⊢
  generalize (qwkBlockLen - _ % qwkBlockLen) % qwkBlockLen = n
  by_cases hch : ch = qwkNewline
  · rw [if_neg (not_not.mpr hch)]
    refine ⟨?_, ?_, ?_⟩
    · refine ⟨_, by rw [expand_append, hexp, expand_replicate_space], ?_⟩
      intro c hc
      obtain rfl := List.eq_of_mem_replicate hc
      rfl
    · intro c hc
      rcases List.mem_append.mp hc with hc | hc
      · exact hmem c hc
      · obtain rfl := List.eq_of_mem_replicate hc
        exact Or.inr (by decide)
    · rcases hlast with h0 | hne | hin
      · exact absurd (hch.symm.trans h0) (by decide)
      · exact absurd hch hne
      · exact List.mem_append_left _ hin
  · rw [if_pos hch]
    refine ⟨?_, ?_, ?_⟩
    · refine ⟨_, by
        rw [expand_append, expand_append, hexp, expand_replicate_space, List.append_assoc], ?_⟩
      intro c hc
      rcases List.mem_append.mp hc with hc | hc
      · have hcrlf : c = 13 ∨ c = 10 := by simpa [expandUnit] using hc
        rcases hcrlf with rfl | rfl <;> rfl
      · obtain rfl := List.eq_of_mem_replicate hc
        rfl
    · intro c hc
      simp only [List.mem_append, List.mem_singleton] at hc
      rcases hc with (hc | rfl) | hc
      · exact hmem c hc
      · exact Or.inr (by decide)
      · obtain rfl := List.eq_of_mem_replicate hc
        exact Or.inr (by decide)
    · simp

/-! ## The walk to the tear line -/

/-- Three dashes at the end of a line, in the columns that the importer takes for the first. -/
def EndsInTear (line : Str) : Prop := line.length % 256 = 3 ∧ tear <:+ line

instance (line : Str) : Decidable (EndsInTear line) := instDecidableAnd

/-- A tear line with the lines before it and what follows its dashes. -/
structure TearLine where
  before : Str
  line : Str
  next : UInt8
  rest : Str

/-- The first tear line, behind the lines `before` and the start `line` of one more. -/
def findTear (before line : Str) : Str → Option TearLine
  | [] => none
  | c :: rest =>
      if (c = 32 ∨ c = qwkNewline) ∧ EndsInTear line then some ⟨before, line, c, rest⟩
      else if c = qwkNewline then findTear (before ++ line ++ [c]) [] rest
      else findTear before (line ++ [c]) rest

/-- A line behind whole lines. -/
structure AtLine (before line : Str) : Prop where
  notMem : qwkNewline ∉ line
  closed : before = [] ∨ ∃ b, before = b ++ [qwkNewline]

theorem AtLine.nil : AtLine [] [] := ⟨List.not_mem_nil, Or.inl rfl⟩

theorem AtLine.newline (before line : Str) : AtLine (before ++ line ++ [qwkNewline]) [] :=
  ⟨List.not_mem_nil, Or.inr ⟨_, rfl⟩⟩

theorem AtLine.concat {before line : Str} {c : UInt8} (h : AtLine before line)
    (hc : c ≠ qwkNewline) : AtLine before (line ++ [c]) := by
  refine ⟨?_, h.closed⟩
  rw [List.mem_append, List.mem_singleton, not_or]
  exact ⟨h.notMem, Ne.symm hc⟩

theorem findTear_spec {before line text : Str} {t : TearLine} (hline : AtLine before line)
    (h : findTear before line text = some t) :
    AtLine t.before t.line ∧ EndsInTear t.line ∧ (t.next = 32 ∨ t.next = qwkNewline) ∧
      before ++ line ++ text = t.before ++ t.line ++ t.next :: t.rest := by
  induction text generalizing before line with
  | nil => cases h
  | cons c rest ih =>
      rw [findTear] at h
      split at h
      · case isTrue hc =>
          cases h
          exact ⟨hline, hc.2, hc.1, rfl⟩
      · split at h
        · case isTrue hc =>
            have hspec := ih (AtLine.newline before line) (hc ▸ h)
            subst hc
            simpa using hspec
        · case isFalse hc =>
            have hspec := ih (hline.concat hc) h
            simpa using hspec

/-- The importer within the body, at the given place. -/
structure InBody (s : Import) (before line : Str) : Prop where
  body_eq : s.body = expand (before ++ line)
  body_ne : s.body ≠ []
  tail_eq : s.tail = []
  col_eq : s.col = UInt8.ofNat line.length
  lastch_ne : s.lastch ≠ 1

theorem ofNat_eq_three_iff (n : ℕ) : UInt8.ofNat n = 3 ↔ n % 256 = 3 := by
  rw [← UInt8.toNat_inj, UInt8.toNat_ofNat']
  rfl

/-- The importer sees the tear line where the walk does. -/
theorem atTear_iff {s : Import} {before line : Str} (h : InBody s before line)
    (hline : AtLine before line) : atTear s ↔ EndsInTear line := by
  rw [atTear, EndsInTear, h.col_eq, ofNat_eq_three_iff, h.body_eq, expand_append,
    expand_of_notMem hline.notMem]
  constructor
  · rintro ⟨-, hlen, hsuffix⟩
    refine ⟨hlen, List.suffix_of_suffix_length_le hsuffix (List.suffix_append _ _) ?_⟩
    have : tear.length = 3 := rfl
    omega
  · rintro ⟨hlen, hsuffix⟩
    exact ⟨h.tail_eq, hlen, hsuffix.trans (List.suffix_append _ _)⟩

variable {o : Importer}

theorem importLoop_cons {s : Import} {c : UInt8} {rest : Str} (hbody : s.body ≠ []) (hc : c ≠ 0) :
    importLoop o s (c :: rest) = importLoop o (importChar o s c) rest := by
  rw [importLoop, if_neg hc, look, if_pos hbody]

/-- A hub is not restricted. -/
theorem importChar_hub (ho : o.fromHub = true) (s : Import) (c : UInt8) :
    importChar o s c =
      if c = 32 ∧ atTear s then
        { splitTear s with
          tail := tear ++ [32]
          col := s.col + 1 }
      else if c = qwkNewline then newline s
      else keepChar s c := by
  simp [importChar, ho]

theorem keepChar_body {s : Import} {c : UInt8} (htail : s.tail = []) (hlast : s.lastch ≠ 1)
    (hc : c ≠ 1) :
    keepChar s c = { s with body := s.body ++ [c], col := s.col + 1, lastch := c } := by
  simp [keepChar, htail, hlast, hc]

theorem keepChar_tail {s : Import} {c : UInt8} (htail : s.tail ≠ []) (hlast : s.lastch ≠ 1)
    (hc : c ≠ 1) :
    keepChar s c = { s with tail := s.tail ++ [c], col := s.col + 1, lastch := c } := by
  simp [keepChar, htail, hlast, hc]

theorem InBody.newline {s : Import} {before line : Str} (h : InBody s before line)
    (htear : ¬atTear s) :
    InBody (newline s) (before ++ line ++ [qwkNewline]) [] ∧
      (newline s).body = s.body ++ [13, 10] := by
  have hne : ¬(s.body = [] ∧ s.tail = []) := fun hnil ↦ h.body_ne hnil.1
  have hnew : Qwk.newline s = { s with body := s.body ++ [13, 10], col := 0 } := by
    rw [Qwk.newline, if_neg hne, if_neg htear]
    simp [h.tail_eq]
  rw [hnew]
  refine ⟨⟨?_, by simp, h.tail_eq, rfl, h.lastch_ne⟩, rfl⟩
  rw [List.append_nil, expand_append, ← h.body_eq]
  rfl

theorem InBody.keepChar {s : Import} {before line : Str} (h : InBody s before line) {c : UInt8}
    (hc1 : c ≠ 1) (hc : c ≠ qwkNewline) :
    InBody (keepChar s c) before (line ++ [c]) ∧ (keepChar s c).body = s.body ++ [c] := by
  rw [keepChar_body h.tail_eq h.lastch_ne hc1]
  refine ⟨⟨?_, by simp, h.tail_eq, ?_, hc1⟩, rfl⟩
  · rw [← List.append_assoc, expand_append (before ++ line), ← h.body_eq, expand_cons, expandUnit,
      if_neg hc]
    rfl
  · rw [List.length_append, List.length_singleton, UInt8.ofNat_add, ← h.col_eq]
    rfl

/-- The importer behind the dashes of the tear line. -/
structure AtTail (s : Import) (t : TearLine) : Prop where
  body_eq : s.body = expand t.before ++ t.line.take (t.line.length - 3)
  tail_eq : s.tail = tear ++ expandUnit t.next
  lastch_ne : s.lastch ≠ 1

theorem length_of_endsInTear {line : Str} (h : EndsInTear line) : 3 ≤ line.length := by
  have := h.1
  omega

/-- The dashes leave the body for the tail. -/
theorem InBody.atTail {s : Import} {before line rest : Str} {c : UInt8} (ho : o.fromHub = true)
    (h : InBody s before line) (hline : AtLine before line) (htear : EndsInTear line)
    (hc : c = 32 ∨ c = qwkNewline) : AtTail (importChar o s c) ⟨before, line, c, rest⟩ := by
  have hat : atTear s := (atTear_iff h hline).mpr htear
  have hlen := length_of_endsInTear htear
  have hbody : s.body.take (s.body.length - 3) =
      expand before ++ line.take (line.length - 3) := by
    rw [h.body_eq, expand_append, expand_of_notMem hline.notMem, List.length_append,
      List.take_append, List.take_of_length_le (by omega)]
    congr 2
    omega
  have hne : ¬(s.body = [] ∧ s.tail = []) := fun hnil ↦ h.body_ne hnil.1
  rw [importChar_hub ho]
  rcases hc with rfl | rfl
  · rw [if_pos ⟨rfl, hat⟩]
    exact ⟨hbody, rfl, h.lastch_ne⟩
  · rw [if_neg (fun hsp ↦ absurd hsp.1 (by decide)), if_pos rfl, Qwk.newline, if_neg hne,
      if_pos hat]
    exact ⟨hbody, rfl, h.lastch_ne⟩

/-- One byte within the body. -/
theorem InBody.step {s : Import} {before line : Str} {c : UInt8} (ho : o.fromHub = true)
    (h : InBody s before line) (hline : AtLine before line) (hc1 : c ≠ 1)
    (hno : ¬((c = 32 ∨ c = qwkNewline) ∧ EndsInTear line)) :
    InBody (importChar o s c) (if c = qwkNewline then before ++ line ++ [c] else before)
        (if c = qwkNewline then [] else line ++ [c]) ∧
      (importChar o s c).body = s.body ++ expandUnit c := by
  rw [not_and, ← atTear_iff h hline] at hno
  rw [importChar_hub ho, if_neg fun hsp ↦ hno (Or.inl hsp.1) hsp.2, expandUnit]
  by_cases hc : c = qwkNewline
  · subst hc
    simpa using h.newline (hno (Or.inr rfl))
  · simpa [hc] using h.keepChar hc1 hc

/-- Without a tear line everything becomes the body. -/
theorem importLoop_of_findTear_none {s : Import} {before line text : Str} (ho : o.fromHub = true)
    (h : InBody s before line) (hline : AtLine before line)
    (hmem : ∀ c ∈ text, c ≠ 0 ∧ c ≠ 1) (hfind : findTear before line text = none) :
    ∃ s', importLoop o s text = some s' ∧ s'.body = s.body ++ expand text ∧ s'.tail = [] := by
  induction text generalizing s before line with
  | nil => exact ⟨s, by rw [importLoop], by simp, h.tail_eq⟩
  | cons c rest ih =>
      have hc := hmem c List.mem_cons_self
      have hrest : ∀ d ∈ rest, d ≠ 0 ∧ d ≠ 1 := fun d hd ↦ hmem d (List.mem_cons_of_mem _ hd)
      rw [findTear] at hfind
      split at hfind
      · cases hfind
      · case isFalse hno =>
          obtain ⟨hin, hbody⟩ := h.step ho hline hc.2 hno
          rw [importLoop_cons h.body_ne hc.1]
          split at hfind
          · case isTrue hnl =>
              rw [if_pos hnl, if_pos hnl] at hin
              obtain ⟨s', hs', hbody', htail⟩ :=
                ih hin (hnl ▸ AtLine.newline before line) hrest hfind
              exact ⟨s', hs', by rw [hbody', hbody, expand_cons, List.append_assoc], htail⟩
          · case isFalse hnl =>
              rw [if_neg hnl, if_neg hnl] at hin
              obtain ⟨s', hs', hbody', htail⟩ := ih hin (hline.concat hnl) hrest hfind
              exact ⟨s', hs', by rw [hbody', hbody, expand_cons, List.append_assoc], htail⟩

/-- With one the importer stands behind its dashes. -/
theorem importLoop_of_findTear_some {s : Import} {before line text : Str} {t : TearLine}
    (ho : o.fromHub = true) (h : InBody s before line) (hline : AtLine before line)
    (hmem : ∀ c ∈ text, c ≠ 0 ∧ c ≠ 1) (hfind : findTear before line text = some t) :
    ∃ s', importLoop o s text = importLoop o s' t.rest ∧ AtTail s' t := by
  induction text generalizing s before line with
  | nil => cases hfind
  | cons c rest ih =>
      have hc := hmem c List.mem_cons_self
      have hrest : ∀ d ∈ rest, d ≠ 0 ∧ d ≠ 1 := fun d hd ↦ hmem d (List.mem_cons_of_mem _ hd)
      rw [importLoop_cons h.body_ne hc.1]
      rw [findTear] at hfind
      split at hfind
      · case isTrue htear =>
          cases hfind
          exact ⟨_, rfl, h.atTail ho hline htear.2 htear.1⟩
      · case isFalse hno =>
          obtain ⟨hin, hbody⟩ := h.step ho hline hc.2 hno
          split at hfind
          · case isTrue hnl =>
              rw [if_pos hnl, if_pos hnl] at hin
              exact ih hin (hnl ▸ AtLine.newline before line) hrest hfind
          · case isFalse hnl =>
              rw [if_neg hnl, if_neg hnl] at hin
              exact ih hin (hline.concat hnl) hrest hfind

/-- Behind a tear line that is not the first everything becomes the tail. -/
theorem importLoop_tail {s : Import} {text : Str} (ho : o.fromHub = true) (hbody : s.body ≠ [])
    (htail : s.tail ≠ []) (hlast : s.lastch ≠ 1) (hmem : ∀ c ∈ text, c ≠ 0 ∧ c ≠ 1) :
    ∃ s', importLoop o s text = some s' ∧ s'.body = s.body ∧
      s'.tail = s.tail ++ expand text := by
  induction text generalizing s with
  | nil => exact ⟨s, by rw [importLoop], rfl, by simp⟩
  | cons c rest ih =>
      have hc := hmem c List.mem_cons_self
      have hrest : ∀ d ∈ rest, d ≠ 0 ∧ d ≠ 1 := fun d hd ↦ hmem d (List.mem_cons_of_mem _ hd)
      have hno : ¬atTear s := fun h ↦ htail h.1
      have hstep : ∃ s', importChar o s c = s' ∧ s'.body = s.body ∧
          s'.tail = s.tail ++ expandUnit c ∧ s'.lastch ≠ 1 := by
        refine ⟨_, rfl, ?_⟩
        rw [importChar_hub ho, if_neg fun h ↦ hno h.2, expandUnit]
        by_cases hnl : c = qwkNewline
        · rw [if_pos hnl, if_pos hnl, newline, if_neg fun h ↦ htail h.2, if_neg hno]
          simp [htail, hlast]
        · rw [if_neg hnl, if_neg hnl, keepChar_tail htail hlast hc.2]
          exact ⟨rfl, rfl, hc.2⟩
      obtain ⟨s₁, hs₁, hbody₁, htail₁, hlast₁⟩ := hstep
      rw [importLoop_cons hbody hc.1, hs₁]
      obtain ⟨s', hs', hbody', htail'⟩ :=
        ih (hbody₁ ▸ hbody) (by simp [htail₁, htail]) hlast₁ hrest
      refine ⟨s', hs', hbody'.trans hbody₁, ?_⟩
      rw [htail', htail₁, expand_cons, List.append_assoc]

/-! ## Lines at the top -/

theorem strlwr_of_isspace {c : UInt8} (hc : Smblib.isspace c) : strlwr [c] = [c] := by
  revert hc
  exact Words.forall_uint8 (p := fun c ↦ Smblib.isspace c → strlwr [c] = [c]) (by decide +kernel) c

theorem isspace_of_strlwr {c n : UInt8} (hc : Smblib.isspace c) (h : strlwr [c] = strlwr [n]) :
    Smblib.isspace n := by
  have hn : strlwr [n] = [c] := h.symm.trans (strlwr_of_isspace hc)
  have hspace : ∀ n : UInt8, (strlwr [n]).all Smblib.isspace → Smblib.isspace n :=
    Words.forall_uint8 (p := fun n ↦ (strlwr [n]).all Smblib.isspace → Smblib.isspace n)
      (by decide +kernel)
  apply hspace
  rw [hn]
  simpa using hc

theorem strnicmp_cons (c n : UInt8) (s name : Str) :
    strnicmp (c :: s) (n :: name) = (decide (strlwr [c] = strlwr [n]) && strnicmp s name) := by
  simp [strnicmp, strlwr, Bool.beq_eq_decide_eq]

/-- A printable character that is in no line end. -/
def Printable (n : UInt8) : Prop := ¬Smblib.isspace n ∧ strlwr [n] ≠ strlwr [qwkNewline]

instance (n : UInt8) : Decidable (Printable n) := instDecidableAnd

theorem hasName_eq {name blocks text ws : Str} (hname : ∀ n ∈ name, Printable n)
    (hexp : expand blocks = text ++ ws) (hws : ∀ c ∈ ws, Smblib.isspace c)
    (hnl : qwkNewline ∈ blocks) :
    hasName name blocks = some (strnicmp text name) := by
  induction name generalizing blocks text with
  | nil => simp [hasName, strnicmp, strlwr]
  | cons n name ih =>
      obtain ⟨hspace, hne⟩ := hname n List.mem_cons_self
      -- a space in the text stops the comparison, and so does its end
      have hstop : ∀ d s, Smblib.isspace d → strnicmp (d :: s) (n :: name) = false := by
        intro d s hd
        rw [strnicmp_cons, decide_eq_false fun h ↦ hspace (isspace_of_strlwr hd h)]
        rfl
      have hnil : strnicmp [] (n :: name) = false := by simp [strnicmp, strlwr]
      cases blocks with
      | nil => simp at hnl
      | cons c blocks =>
          by_cases hc : c = qwkNewline
          · subst hc
            rw [hasName, if_neg (Ne.symm hne)]
            cases text with
            | nil => rw [hnil]
            | cons d text =>
                obtain rfl : 13 = d := (List.cons.inj hexp).1
                rw [hstop _ _ rfl]
          · have hexp' : c :: expand blocks = text ++ ws := by
              rw [← hexp, expand_cons, expandUnit, if_neg hc]
              rfl
            cases text with
            | nil =>
                have hd : Smblib.isspace c := hws c (by rw [← List.nil_append ws, ← hexp']; simp)
                rw [hasName, if_neg fun h ↦ hspace (isspace_of_strlwr hd h), hnil]
            | cons d text =>
                obtain ⟨rfl, hrest⟩ := List.cons.inj hexp'
                rw [hasName, strnicmp_cons]
                split
                · case isTrue h =>
                    rw [ih (fun m hm ↦ hname m (List.mem_cons_of_mem _ hm)) hrest
                      (by simpa [Ne.symm hc] using hnl)]
                    simp [h]
                · case isFalse h => simp [h]

theorem hasNameOf_eq {blocks text : Str} {names : List Str}
    (hnames : ∀ name ∈ names, ∀ n ∈ name, Printable n) (h : Blocks text blocks) :
    hasNameOf blocks names = some (decide (∃ name ∈ names, strnicmp text name)) := by
  obtain ⟨ws, hexp, hws⟩ := h.expand_eq
  induction names with
  | nil => simp [hasNameOf]
  | cons name names ih =>
      have hhead := hasName_eq (hnames name List.mem_cons_self) hexp hws h.newline_mem
      have htail := ih fun m hm ↦ hnames m (List.mem_cons_of_mem _ hm)
      rw [hasNameOf, hhead, htail]
      cases hcmp : strnicmp text name <;> simp [hcmp]

theorem printable_headerNames : ∀ name ∈ headerNames, ∀ n ∈ name, Printable n := by
  have hall : headerNames.flatten.all fun n ↦ decide (Printable n) := by decide +kernel
  intro name hname n hn
  exact of_decide_eq_true (List.all_eq_true.mp hall n (List.mem_flatten.mpr ⟨name, hname, hn⟩))

/-- The text starts with one of the header names, in whatever case. -/
def NamesHeader (o : Importer) (text : Str) : Prop :=
  o.ext = true ∧ ∃ name ∈ headerNames, strnicmp text name

theorem isKludge_eq {blocks text : Str} (h : Blocks text blocks) (hat : blocks.head? ≠ some 64) :
    (NamesHeader o text → isKludge o blocks = some true) ∧
      (¬NamesHeader o text → isKludge o blocks = some false) := by
  rw [isKludge, if_neg hat, hasNameOf_eq printable_headerNames h, NamesHeader]
  cases hext : o.ext with
  | false => simp
  | true => simp

/-! ## No character is made -/

/-- A character that no line end and no padding can stand for. -/
def isInk (c : UInt8) : Bool := !Smblib.isspace c && c != qwkNewline

def ink (s : Str) : ℕ := s.countP isInk

@[simp] theorem ink_nil : ink [] = 0 := rfl

@[simp] theorem ink_append (s t : Str) : ink (s ++ t) = ink s + ink t := List.countP_append

theorem ink_cons (c : UInt8) (s : Str) : ink (c :: s) = ink [c] + ink s :=
  ink_append [c] s

theorem ink_le_of_prefix {s t : Str} (h : s <+: t) : ink s ≤ ink t := h.sublist.countP_le

theorem ink_drop_le (n : ℕ) (s : Str) : ink (s.drop n) ≤ ink s := (List.drop_sublist n s).countP_le

theorem ink_rdropWhile {p : UInt8 → Bool} (s : Str) (h : ∀ c, p c → isInk c = false) :
    ink (s.rdropWhile p) = ink s := by
  obtain ⟨t, ht, hp⟩ := Trim.exists_rdropWhile_append p s
  have hzero : ink t = 0 := List.countP_eq_zero.mpr fun c hc ↦ by simp [h c (hp c hc)]
  conv_rhs => rw [ht, ink_append, hzero, Nat.add_zero]

theorem isInk_of_isspace {c : UInt8} (h : Smblib.isspace c) : isInk c = false := by
  rw [isInk, h]
  rfl

theorem ink_truncsp (s : Str) : ink (truncsp s) = ink s :=
  ink_rdropWhile s fun _ ↦ isInk_of_isspace

theorem ink_expand (s : Str) : ink (expand s) = ink s := by
  induction s with
  | nil => rfl
  | cons c s ih =>
      rw [expand_cons, ink_append, ih, ink_cons]
      congr 1
      rw [expandUnit]
      split
      · case isTrue h =>
          subst h
          rfl
      · rfl

def Import.ink (s : Import) : ℕ := Qwk.ink s.body + Qwk.ink s.tail

theorem splitTear_ink {s : Import} (h : atTear s) : (splitTear s).ink = s.ink := by
  obtain ⟨b, hb⟩ := h.2.2
  have htake : s.body.take (s.body.length - 3) = b := by
    rw [← hb, List.length_append, show tear.length = 3 from rfl, Nat.add_sub_cancel,
      List.take_left]
  simp only [Import.ink, splitTear, htake, h.1, ink_nil, Nat.add_zero]
  rw [← hb, ink_append]

theorem newline_ink (s : Import) : (newline s).ink = s.ink := by
  have hcrlf : ink [13, 10] = 0 := rfl
  have hsplit : (if atTear s then splitTear s else s).ink = s.ink := by
    split
    · case isTrue h => exact splitTear_ink h
    · rfl
  rw [newline]
  split
  · rfl
  · rw [← hsplit]
    generalize (if atTear s then splitTear s else s) = t
    simp only
    split <;> simp only [Import.ink, ink_append, hcrlf, Nat.add_zero]

theorem keepChar_ink (s : Import) (c : UInt8) : (keepChar s c).ink ≤ s.ink + ink [c] := by
  have htail := ink_le_of_prefix (List.dropLast_prefix s.tail)
  have hbody := ink_le_of_prefix (List.dropLast_prefix s.body)
  simp only [keepChar]
  split <;> split <;> simp only [Import.ink, ink_append] <;> omega

theorem importChar_ink (s : Import) (c : UInt8) : (importChar o s c).ink ≤ s.ink + ink [c] := by
  rw [importChar]
  split
  · case isTrue h =>
      have hsplit := splitTear_ink h.2
      have htail : (splitTear s).tail = tear := rfl
      have hspace : ink (tear ++ [32]) = ink tear := rfl
      simp only [Import.ink, htail] at hsplit
      simp only [Import.ink, hspace]
      omega
  · split
    · rw [newline_ink]
      exact Nat.le_add_right _ _
    · split
      · exact Nat.le_add_right _ _
      · split
        · exact Nat.le_add_right _ _
        · exact keepChar_ink s c

/-- The importer makes no character that is not in the blocks. -/
theorem importLoop_ink {s s' : Import} {text : Str} (h : importLoop o s text = some s') :
    s'.ink ≤ s.ink + ink text := by
  fun_induction importLoop o s text with
  | case1 s =>
      cases h
      exact Nat.le_add_right _ _
  | case2 s rest ih =>
      have := ih h
      rw [ink_cons]
      omega
  | case3 s c rest hc hlook => cases h
  | case4 s c rest hc hlook ih =>
      have := ih h
      have hchar := importChar_ink (o := o) s c
      rw [ink_cons]
      omega
  | case5 s c rest hc hlook ih =>
      have := ih h
      rw [ink_cons]
      simp only [Import.ink, ink_append] at this ⊢
      omega
  | case6 s c rest hc length hlook ih =>
      have := ih h
      have hdrop := ink_drop_le length rest
      rw [ink_cons]
      simp only [Import.ink] at this ⊢
      omega

theorem trimBody_isPrefix (body : Str) : trimBody body <+: body := by
  have h := List.rdropWhile_prefix (· = 32) body
  rw [trimBody]
  split
  · exact (List.take_prefix _ _).trans h
  · exact h

theorem trimTail_isPrefix (tail : Str) : trimTail tail <+: tail := List.rdropWhile_prefix _ tail

theorem ink_joined (body tail : Str) : ink (joined body tail) = ink body + ink tail := by
  rw [joined]
  split
  · case isTrue h => rw [h, ink_nil, Nat.add_zero]
  · have hcrlf : ink [13, 10] = 0 := rfl
    rw [ink_append, ink_append, hcrlf, Nat.add_zero]

/-! ## A tear line at the top -/

/-- The tail starts with a dash and the body does not. -/
structure DashedTail (s : Import) : Prop where
  tail_head : s.tail.head? = some 45
  body_head : s.body.head? ≠ some 45
  lastch_ne : s.lastch ≠ 1

theorem DashedTail.tail_ne {s : Import} (h : DashedTail s) : s.tail ≠ [] := by
  intro hnil
  simpa [hnil] using h.tail_head

theorem head?_append_of_ne {s : Str} (t : Str) (h : s ≠ []) : (s ++ t).head? = s.head? := by
  cases s with
  | nil => exact absurd rfl h
  | cons c s => rfl

theorem DashedTail.importChar {s : Import} {c : UInt8} (ho : o.fromHub = true)
    (h : DashedTail s) (hc : c ≠ 1) : DashedTail (importChar o s c) := by
  have hno : ¬atTear s := fun hat ↦ h.tail_ne hat.1
  have hhead : ∀ t, (s.tail ++ t).head? = some 45 := by
    intro t
    rw [head?_append_of_ne t h.tail_ne]
    exact h.tail_head
  rw [importChar_hub ho, if_neg fun hat ↦ hno hat.2]
  split
  · rw [newline, if_neg fun hnil ↦ h.tail_ne hnil.2, if_neg hno]
    simp only [h.tail_ne, ne_eq, not_false_iff, if_true]
    exact ⟨hhead _, h.body_head, h.lastch_ne⟩
  · rw [keepChar_tail h.tail_ne h.lastch_ne hc]
    exact ⟨hhead _, h.body_head, hc⟩

theorem isKludge_head {c : UInt8} {rest : Str} (h : isKludge o (c :: rest) = some true) :
    c ≠ 45 := by
  rintro rfl
  rw [isKludge, if_neg (by simp)] at h
  split at h
  · have hno : hasNameOf (45 :: rest) headerNames = some false := by
      simp only [headerNames, hasNameOf, hasName]
      rfl
    rw [hno] at h
    cases h
  · cases h

theorem importLoop_dashedTail {s s' : Import} {text : Str} (ho : o.fromHub = true)
    (hs : DashedTail s) (hmem : ∀ c ∈ text, c ≠ 1) (h : importLoop o s text = some s') :
    DashedTail s' := by
  fun_induction importLoop o s text with
  | case1 s =>
      cases h
      exact hs
  | case2 s rest ih => exact ih hs (fun c hc ↦ hmem c (List.mem_cons_of_mem _ hc)) h
  | case3 s c rest hc hlook => cases h
  | case4 s c rest hc hlook ih =>
      have hrest : ∀ d ∈ rest, d ≠ 1 := fun d hd ↦ hmem d (List.mem_cons_of_mem _ hd)
      exact ih (hs.importChar ho (hmem c List.mem_cons_self)) hrest h
  | case5 s c rest hc hlook ih =>
      have hrest : ∀ d ∈ rest, d ≠ 1 := fun d hd ↦ hmem d (List.mem_cons_of_mem _ hd)
      apply ih _ hrest h
      have hbody : s.body = [] := by
        by_contra hne
        simp [look, hne] at hlook
      have hkludge : isKludge o (c :: rest) = some true := by
        rw [look, if_neg (not_not.mpr hbody)] at hlook
        cases hk : isKludge o (c :: rest) with
        | none => simp [hk] at hlook
        | some b =>
            cases b with
            | true => rfl
            | false => simp [hk] at hlook
      exact ⟨hs.tail_head, by simp [hbody, isKludge_head hkludge], hs.lastch_ne⟩
  | case6 s c rest hc length hlook ih =>
      apply ih ⟨hs.tail_head, hs.body_head, hs.lastch_ne⟩ _ h
      intro d hd
      exact hmem d (List.mem_cons_of_mem _ (List.mem_of_mem_drop hd))

/-! ## Trimming the two parts -/

/-- A body loses white space only. -/
theorem truncsp_trimBody (body : Str) : truncsp (trimBody body) = truncsp body := by
  obtain ⟨sp, hsp, hspace⟩ := Trim.exists_rdropWhile_append (· = 32) body
  have hfirst : truncsp (body.rdropWhile (· = 32)) = truncsp body := by
    conv_rhs => rw [hsp]
    refine (Trim.rdropWhile_append fun c hc ↦ ?_).symm
    obtain rfl : c = 32 := by simpa using hspace c hc
    rfl
  rw [trimBody, ← hfirst]
  split
  · case isTrue hcrlf =>
      obtain ⟨e, he⟩ := hcrlf
      rw [← he, List.length_append, show ([13, 10] : Str).length = 2 from rfl, Nat.add_sub_cancel,
        List.take_left]
      refine (Trim.rdropWhile_append fun c hc ↦ ?_).symm
      have : c = 13 ∨ c = 10 := by simpa using hc
      rcases this with rfl | rfl <;> rfl
  · rfl

theorem trimBody_crlf (e : Str) : trimBody (e ++ [13, 10]) = e := by
  have hkeep : (e ++ [13, 10]).rdropWhile (· = 32) = e ++ [13, 10] :=
    Trim.rdropWhile_eq_self_of_getLast (by simp)
  rw [trimBody, hkeep, if_pos (List.suffix_append e _), List.length_append]
  exact List.take_left

/-- The tail of a message starts with three dashes. -/
theorem truncsp_append_tear (s t : Str) : truncsp (s ++ (tear ++ t)) = s ++ truncsp (tear ++ t) :=
  Trim.rdropWhile_append_of_exists ⟨45, by simp [tear], rfl⟩

theorem trimTail_tear (t : Str) : ∃ u, trimTail (tear ++ t) = tear ++ u := by
  have hdash : ∀ u : Str, trimTail (45 :: u) = 45 :: trimTail u :=
    fun u ↦ Trim.rdropWhile_cons_of_neg (by decide)
  refine ⟨trimTail t, ?_⟩
  simp only [tear, List.cons_append, List.nil_append, hdash]

theorem joined_tear (body t : Str) :
    joined body (tear ++ t) = body ++ [13, 10] ++ (tear ++ t) := by
  rw [joined, if_neg (by simp [tear])]

/-- The bytes of a text: no other control characters than the line ends. -/
def TextBytes (s : Str) : Prop := ∀ c ∈ s, c = 10 ∨ c = 13 ∨ 32 ≤ c

/-- What `<= ' '` stops at is neither white space nor a negative `char`. -/
theorem not_trimmed_iff {c : UInt8} (h : c = 10 ∨ c = 13 ∨ 32 ≤ c) :
    (decide (c ≤ 32 ∨ 128 ≤ c)) = false ↔ Smblib.isspace c = false ∧ c < 128 := by
  revert h
  exact Words.forall_uint8
    (p := fun c ↦ (c = 10 ∨ c = 13 ∨ 32 ≤ c) →
      ((decide (c ≤ 32 ∨ 128 ≤ c)) = false ↔ Smblib.isspace c = false ∧ c < 128))
    (by decide +kernel) c

/-- The tail is trimmed right if its text ends in an ASCII character. -/
theorem truncsp_trimTail_iff {tail : Str} (hbytes : TextBytes tail) :
    truncsp (trimTail tail) = truncsp tail ↔ ∀ c ∈ (truncsp tail).getLast?, c < 128 := by
  constructor
  · intro h c hc
    have hlast := Trim.getLast_rdropWhile (fun c ↦ decide (c ≤ 32 ∨ 128 ≤ c)) tail
    have hself : truncsp (trimTail tail) = trimTail tail := by
      apply Trim.rdropWhile_eq_self_of_getLast
      intro d hd
      have hmem := (trimTail_isPrefix tail).subset (List.mem_of_mem_getLast? hd)
      exact ((not_trimmed_iff (hbytes d hmem)).mp (hlast d hd)).1
    rw [← h, hself] at hc
    have hmem := (trimTail_isPrefix tail).subset (List.mem_of_mem_getLast? hc)
    exact ((not_trimmed_iff (hbytes c hmem)).mp (hlast c hc)).2
  · intro h
    obtain ⟨ws, hws, hspace⟩ := Trim.exists_rdropWhile_append Smblib.isspace tail
    have hlast := Trim.getLast_rdropWhile Smblib.isspace tail
    change tail = truncsp tail ++ ws at hws
    change ∀ c ∈ (truncsp tail).getLast?, Smblib.isspace c = false at hlast
    have htrim : trimTail tail = truncsp tail := by
      rw [trimTail]
      conv_lhs => rw [hws]
      rw [Trim.rdropWhile_append]
      · apply Trim.rdropWhile_eq_self_of_getLast
        intro c hc
        have hmem : c ∈ tail := by
          rw [hws]
          exact List.mem_append_left _ (List.mem_of_mem_getLast? hc)
        exact (not_trimmed_iff (hbytes c hmem)).mpr ⟨hlast c hc, h c hc⟩
      · intro c hc
        by_contra hno
        have hmem : c ∈ tail := by
          rw [hws]
          exact List.mem_append_right _ hc
        have := (not_trimmed_iff (hbytes c hmem)).mp (by simpa using hno)
        simp [hspace c hc] at this
    rw [htrim]
    exact Trim.rdropWhile_eq_self_of_getLast hlast

/-- A tail behind a whole line is put back in its place. -/
theorem joined_crlf_iff {e t : Str} (hbytes : TextBytes (tear ++ t)) :
    truncsp (joined (trimBody (e ++ [13, 10])) (trimTail (tear ++ t))) =
        truncsp (e ++ [13, 10] ++ (tear ++ t)) ↔
      ∀ c ∈ (truncsp (e ++ [13, 10] ++ (tear ++ t))).getLast?, c < 128 := by
  have hne : truncsp (tear ++ t) ≠ [] := by
    have hdash : ∀ u : Str, truncsp (45 :: u) = 45 :: truncsp u :=
      fun u ↦ Trim.rdropWhile_cons_of_neg rfl
    simp [tear, hdash]
  rw [truncsp_append_tear, List.getLast?_append_of_ne_nil _ hne, ← truncsp_trimTail_iff hbytes]
  obtain ⟨u, hu⟩ := trimTail_tear t
  rw [hu, joined_tear, trimBody_crlf, truncsp_append_tear, List.append_cancel_left_eq]

/-- Behind the start of a longer line it is not. -/
theorem joined_long_ne {b line t : Str} (hlen : 2 ≤ line.length) (hcr : 13 ∉ line) :
    truncsp (joined (trimBody (b ++ line)) (trimTail (tear ++ t))) ≠
      truncsp (b ++ line ++ (tear ++ t)) := by
  obtain ⟨u, hu⟩ := trimTail_tear t
  obtain ⟨sp, hsp, hspace⟩ := Trim.exists_rdropWhile_append (· = 32) (b ++ line)
  have hdash : ∀ v : Str, truncsp (tear ++ v) = 45 :: truncsp (45 :: 45 :: v) :=
    fun v ↦ Trim.rdropWhile_cons_of_neg rfl
  rw [hu, joined_tear, trimBody, truncsp_append_tear, truncsp_append_tear, hdash, hdash]
  split
  · case isTrue hcrlf =>
      -- a space lies between the line end and the dashes
      have hne : sp ≠ [] := by
        rintro rfl
        rw [List.append_nil] at hsp
        rw [← hsp] at hcrlf
        have hsuffix := List.suffix_of_suffix_length_le hcrlf (List.suffix_append b line) hlen
        exact hcr (hsuffix.subset (by simp))
      obtain ⟨e, he⟩ := hcrlf
      obtain ⟨c, sp', rfl⟩ := List.exists_cons_of_ne_nil hne
      obtain rfl : c = 32 := by simpa using hspace c List.mem_cons_self
      conv_rhs => rw [hsp]
      rw [← he, List.length_append, show ([13, 10] : Str).length = 2 from rfl, Nat.add_sub_cancel,
        List.take_left]
      simp
  · conv_rhs => rw [hsp]
    cases sp with
    | nil => simp
    | cons c sp' =>
        obtain rfl : c = 32 := by simpa using hspace c List.mem_cons_self
        simp

/-! ## The round trip -/

/-- The message imported from the exported text has this text, up to white space at its end. -/
def RoundTrips (o : Importer) (text : Str) : Prop :=
  ∃ body tail, qwkImportMsg o (msgtoqwk true text) = some (body, tail) ∧
    truncsp (joined body tail) = truncsp text

/-- No line at the top is taken for a kludge line.  The first tear line, if any, is not the first
line, has nothing before its dashes, and the text ends in an ASCII character. -/
structure Keeps (o : Importer) (text : Str) : Prop where
  header : ¬NamesHeader o text
  tear : ∀ t, findTear [] [] (msgtoqwk true text) = some t →
    t.before ≠ [] ∧ t.line = tear ∧ ∀ c ∈ (truncsp text).getLast?, c < 128

/-- The text starts with a byte that is no line end and no at sign. -/
structure Exported (text blocks rest : Str) (c : UInt8) : Prop where
  toBlocks : Blocks text blocks
  blocks_eq : blocks = c :: rest
  text_head : text.head? = some c
  first : c ≠ qwkNewline ∧ c ≠ 64

theorem exported {text : Str} (hplain : PlainText text) {c : UInt8} (hhead : text.head? = some c)
    (hc : c ≠ 13 ∧ c ≠ 64) : ∃ rest, Exported text (msgtoqwk true text) rest c := by
  have hblocks := msgtoqwk_blocks hplain true
  obtain ⟨ws, hexp, -⟩ := hblocks.expand_eq
  obtain ⟨text', rfl⟩ : ∃ text', text = c :: text' := by
    cases text with
    | nil => simp at hhead
    | cons d text' => exact ⟨text', by simpa using hhead⟩
  cases hb : msgtoqwk true (c :: text') with
  | nil => simp [hb] at hexp
  | cons d rest =>
      rw [hb, expand_cons, expandUnit] at hexp
      split at hexp
      · exact absurd (List.cons.inj hexp).1.symm hc.1
      · case isFalse hd =>
          obtain rfl : d = c := (List.cons.inj hexp).1
          exact ⟨rest, hb ▸ hblocks, rfl, rfl, hd, hc.2⟩

namespace Exported

variable {text blocks rest : Str} {c : UInt8}

theorem mem (h : Exported text blocks rest c) : ∀ d ∈ blocks, d ≠ 0 ∧ d ≠ 1 ∧ d ≠ 13 := by
  intro d hd
  have hbyte : ∀ d : UInt8, d = 10 ∨ 32 ≤ d → d ≠ 0 ∧ d ≠ 1 ∧ d ≠ 13 :=
    Words.forall_uint8 (p := fun d ↦ d = 10 ∨ 32 ≤ d → d ≠ 0 ∧ d ≠ 1 ∧ d ≠ 13)
      (by decide +kernel)
  exact hbyte d (h.toBlocks.mem d hd)

theorem truncsp_expand (h : Exported text blocks rest c) :
    truncsp (expand blocks) = truncsp text := by
  obtain ⟨ws, hexp, hws⟩ := h.toBlocks.expand_eq
  rw [hexp]
  exact Trim.rdropWhile_append hws

theorem textBytes_expand (h : Exported text blocks rest c) : TextBytes (expand blocks) := by
  intro d hd
  obtain ⟨u, hu, hdu⟩ := List.mem_flatMap.mp hd
  rw [expandUnit] at hdu
  split at hdu
  · have : d = 13 ∨ d = 10 := by simpa using hdu
    rcases this with rfl | rfl
    · exact Or.inr (Or.inl rfl)
    · exact Or.inl rfl
  · obtain rfl : d = u := by simpa using hdu
    exact (h.toBlocks.mem d hu).imp_right Or.inr

/-- The first character goes into the body if no kludge line starts with it. -/
theorem importLoop_start (h : Exported text blocks rest c) (ho : o.fromHub = true)
    (hheader : ¬NamesHeader o text) :
    ∃ s, importLoop o start blocks = importLoop o s rest ∧ InBody s [] [c] ∧ s.body = [c] := by
  have hmem := h.mem c (by simp [h.blocks_eq])
  have hhead : blocks.head? ≠ some 64 := by simp [h.blocks_eq, h.first.2]
  have hkludge := (isKludge_eq h.toBlocks hhead).2 hheader
  have hno : ¬atTear start := by decide
  have hchar : importChar o start c = { start with body := [c], col := 1, lastch := c } := by
    rw [importChar_hub ho, if_neg fun hat ↦ hno hat.2, if_neg h.first.1,
      keepChar_body rfl (by decide) hmem.2.1]
    rfl
  refine ⟨{ start with body := [c], col := 1, lastch := c }, ?_, ?_, rfl⟩
  · rw [h.blocks_eq] at hkludge ⊢
    rw [importLoop, if_neg hmem.1, look, if_neg (by simp [start]), hkludge]
    exact congrArg (importLoop o · rest) hchar
  · refine ⟨?_, by simp, rfl, rfl, hmem.2.1⟩
    simp [expandUnit, h.first.1]

theorem findTear_start (h : Exported text blocks rest c) :
    findTear [] [] blocks = findTear [] [c] rest := by
  have hno : ¬EndsInTear [] := by decide
  rw [h.blocks_eq, findTear, if_neg fun htear ↦ hno htear.2, if_neg h.first.1, List.nil_append]

/-- All of the text that is no white space is in the blocks. -/
theorem ink_eq (h : Exported text blocks rest c) : ink text = ink [c] + ink rest := by
  rw [← ink_truncsp text, ← h.truncsp_expand, ink_truncsp, ink_expand, h.blocks_eq, ink_cons]

end Exported

theorem exists_strchrNewline {text : Str} (hnl : qwkNewline ∈ text) (hzero : ∀ c ∈ text, c ≠ 0) :
    ∃ i, strchrNewline text = some (some i) := by
  induction text with
  | nil => simp at hnl
  | cons c text ih =>
      rw [strchrNewline]
      by_cases hc : c = qwkNewline
      · exact ⟨0, if_pos hc⟩
      · rw [if_neg hc, if_neg (hzero c List.mem_cons_self)]
        obtain ⟨i, hi⟩ := ih (by simpa [Ne.symm hc] using hnl)
          fun d hd ↦ hzero d (List.mem_cons_of_mem _ hd)
        exact ⟨i + 1, by rw [hi]; rfl⟩

theorem isInk_of_namesHeader {text : Str} {c : UInt8} (hhead : text.head? = some c)
    (hc : c ≠ qwkNewline) (h : NamesHeader o text) : isInk c = true := by
  obtain ⟨-, name, hname, hcmp⟩ := h
  have hprint := printable_headerNames name hname
  have hspace : ¬Smblib.isspace c := by
    intro hsp
    cases text with
    | nil => simp at hhead
    | cons d text =>
        obtain rfl : d = c := by simpa using hhead
        cases name with
        | nil => revert hname; decide
        | cons n name =>
            rw [strnicmp_cons, Bool.and_eq_true, decide_eq_true_iff] at hcmp
            exact (hprint n List.mem_cons_self).1 (isspace_of_strlwr hsp hcmp.1)
  simp [isInk, hspace, hc]

/-- A line that is taken for a kludge line is missing from the message. -/
theorem not_roundTrips_of_namesHeader {text rest : Str} {c : UInt8}
    (h : Exported text (msgtoqwk true text) rest c) (hheader : NamesHeader o text) :
    ¬RoundTrips o text := by
  rintro ⟨body, tail, himport, htext⟩
  generalize msgtoqwk true text = blocks at h himport
  obtain ⟨s, hs, hparts⟩ := Option.map_eq_some_iff.mp himport
  obtain ⟨rfl, rfl⟩ := Prod.mk.inj hparts
  have hhead : blocks.head? ≠ some 64 := by simp [h.blocks_eq, h.first.2]
  have hkludge := (isKludge_eq h.toBlocks hhead).1 hheader
  obtain ⟨i, hi⟩ := exists_strchrNewline h.toBlocks.newline_mem fun d hd ↦ (h.mem d hd).1
  have hmem := h.mem c (by simp [h.blocks_eq])
  change importLoop o start blocks = some s at hs
  rw [h.blocks_eq] at hs hkludge hi
  have hlook : look o start (c :: rest) = some (.line i) := by
    rw [look, if_neg (by simp [start]), hkludge]
    simp [hi]
  rw [importLoop, if_neg hmem.1, hlook] at hs
  have hink := importLoop_ink hs
  have hdrop := ink_drop_le i rest
  have hbody := ink_le_of_prefix (trimBody_isPrefix s.body)
  have htail := ink_le_of_prefix (trimTail_isPrefix s.tail)
  have hfirst : ink [c] = 1 := by
    simp [ink, isInk_of_namesHeader h.text_head h.first.1 hheader]
  have hsame : ink (joined (trimBody s.body) (trimTail s.tail)) = ink text := by
    rw [← ink_truncsp, htext, ink_truncsp]
  rw [ink_joined, h.ink_eq, hfirst] at hsame
  simp only [Import.ink, start, ink_nil] at hink
  omega

/-- Without a tear line the text comes back. -/
theorem roundTrips_of_findTear_none {text rest : Str} {c : UInt8} (ho : o.fromHub = true)
    (h : Exported text (msgtoqwk true text) rest c) (hheader : ¬NamesHeader o text)
    (hfind : findTear [] [] (msgtoqwk true text) = none) : RoundTrips o text := by
  generalize hb : msgtoqwk true text = blocks at h hfind
  obtain ⟨s₁, hs₁, hin, hbody₁⟩ := h.importLoop_start ho hheader
  have hline : AtLine [] [c] := AtLine.nil.concat h.first.1
  rw [h.findTear_start] at hfind
  have hmem : ∀ d ∈ rest, d ≠ 0 ∧ d ≠ 1 := fun d hd ↦
    ⟨(h.mem d (by simp [h.blocks_eq, hd])).1, (h.mem d (by simp [h.blocks_eq, hd])).2.1⟩
  obtain ⟨s, hs, hbody, htail⟩ := importLoop_of_findTear_none ho hin hline hmem hfind
  refine ⟨trimBody s.body, trimTail s.tail, ?_, ?_⟩
  · rw [hb, qwkImportMsg]
    exact congrArg (Option.map _) (hs₁.trans hs)
  · have hexp : s.body = expand blocks := by
      rw [hbody, hbody₁, h.blocks_eq, expand_cons, expandUnit, if_neg h.first.1]
    have hnil : trimTail [] = [] := rfl
    rw [htail, hnil, joined, if_pos rfl, truncsp_trimBody, hexp, h.truncsp_expand]

/-- The text is the body and the tail in front of the dashes. -/
theorem expand_of_findTear {text blocks rest : Str} {c : UInt8} {t : TearLine}
    (h : Exported text blocks rest c) (hfind : findTear [] [] blocks = some t) :
    ∃ line, t.line = line ++ tear ∧ t.line.take (t.line.length - 3) = line ∧ 13 ∉ line ∧
      truncsp text =
        truncsp (expand t.before ++ line ++ (tear ++ expand (t.next :: t.rest))) ∧
      TextBytes (tear ++ expand (t.next :: t.rest)) := by
  obtain ⟨hline, ⟨hlen, line, hdash⟩, hnext, heq⟩ := findTear_spec AtLine.nil hfind
  have hsplit : blocks = t.before ++ t.line ++ t.next :: t.rest := by simpa using heq
  have hexp : expand blocks = expand t.before ++ line ++ (tear ++ expand (t.next :: t.rest)) := by
    rw [hsplit, expand_append, expand_append, expand_of_notMem hline.notMem, ← hdash]
    simp only [List.append_assoc]
  refine ⟨line, hdash.symm, ?_, ?_, ?_, ?_⟩
  · rw [← hdash, List.length_append, show tear.length = 3 from rfl, Nat.add_sub_cancel,
      List.take_left]
  · intro hcr
    refine (h.mem 13 ?_).2.2 rfl
    rw [hsplit, ← hdash]
    simp [hcr]
  · rw [← h.truncsp_expand, hexp]
  · intro d hd
    apply h.textBytes_expand d
    rw [hexp]
    exact List.mem_append_right _ hd

theorem roundTrips_iff_of_importLoop {text : Str} {s : Import}
    (hs : importLoop o start (msgtoqwk true text) = some s) :
    RoundTrips o text ↔ truncsp (joined (trimBody s.body) (trimTail s.tail)) = truncsp text := by
  have himport : qwkImportMsg o (msgtoqwk true text) = some (trimBody s.body, trimTail s.tail) :=
    congrArg (Option.map _) hs
  constructor
  · rintro ⟨body, tail, hbt, htext⟩
    obtain ⟨rfl, rfl⟩ := Prod.mk.inj (Option.some_inj.mp (himport.symm.trans hbt))
    exact htext
  · exact fun htext ↦ ⟨_, _, himport, htext⟩

/-- Behind a tear line at the top there is no body, so that the joined text starts with a line
end. -/
theorem not_roundTrips_of_dashedTail {text : Str} {s : Import}
    (hs : importLoop o start (msgtoqwk true text) = some s) (h : DashedTail s)
    (htext : text.head? = some 45) : ¬RoundTrips o text := by
  rw [roundTrips_iff_of_importLoop hs]
  intro heq
  obtain ⟨text', rfl⟩ : ∃ text', text = 45 :: text' := by
    cases text with
    | nil => simp at htext
    | cons d text' => exact ⟨text', by simpa using htext⟩
  obtain ⟨tail', htail⟩ : ∃ tail', s.tail = 45 :: tail' := by
    have := h.tail_head
    cases htail : s.tail with
    | nil => simp [htail] at this
    | cons d tail' => exact ⟨tail', by simpa [htail] using this⟩
  have htrim : trimTail s.tail = 45 :: trimTail tail' := by
    rw [htail]
    exact Trim.rdropWhile_cons_of_neg (by decide)
  have hdash : ∀ u : Str, truncsp (45 :: u) = 45 :: truncsp u :=
    fun u ↦ Trim.rdropWhile_cons_of_neg rfl
  have hjoin : ∀ u v : Str, truncsp (u ++ 45 :: v) = u ++ truncsp (45 :: v) :=
    fun u v ↦ Trim.rdropWhile_append_of_exists ⟨45, List.mem_cons_self, rfl⟩
  rw [htrim, joined, if_neg (by simp), hjoin, hdash, hdash] at heq
  cases hbody : trimBody s.body with
  | nil => simp [hbody] at heq
  | cons d body' =>
      obtain rfl : d = 45 := by
        rw [hbody] at heq
        exact (List.cons.inj heq).1
      obtain ⟨u, hu⟩ := trimBody_isPrefix s.body
      apply h.body_head
      rw [← hu, hbody]
      rfl

/-- With a tear line the text comes back when the line has nothing else, there is a line before
it and the last character is no negative `char`. -/
theorem roundTrips_iff_of_findTear_some {text rest : Str} {c : UInt8} {t : TearLine}
    (ho : o.fromHub = true) (h : Exported text (msgtoqwk true text) rest c)
    (hheader : ¬NamesHeader o text) (hfind : findTear [] [] (msgtoqwk true text) = some t) :
    RoundTrips o text ↔
      t.before ≠ [] ∧ t.line = tear ∧ ∀ d ∈ (truncsp text).getLast?, d < 128 := by
  obtain ⟨hclosed, hends, -, heq⟩ := findTear_spec AtLine.nil hfind
  obtain ⟨line, hline, htake, hcr, htext, hbytes⟩ := expand_of_findTear h hfind
  obtain ⟨s₁, hs₁, hin, -⟩ := h.importLoop_start ho hheader
  have hmem : ∀ d ∈ rest, d ≠ 0 ∧ d ≠ 1 := fun d hd ↦
    ⟨(h.mem d (by simp [h.blocks_eq, hd])).1, (h.mem d (by simp [h.blocks_eq, hd])).2.1⟩
  have hfind' := h.findTear_start.symm.trans hfind
  obtain ⟨s₂, hs₂, hat⟩ :=
    importLoop_of_findTear_some ho hin (AtLine.nil.concat h.first.1) hmem hfind'
  have hbody : s₂.body = expand t.before ++ line := by rw [hat.body_eq, htake]
  have hrest : ∀ d ∈ t.rest, d ≠ 0 ∧ d ≠ 1 := by
    intro d hd
    have hdm : d ∈ msgtoqwk true text := by
      have hsplit : msgtoqwk true text = t.before ++ t.line ++ t.next :: t.rest := by
        simpa using heq
      rw [hsplit]
      simp [hd]
    exact ⟨(h.mem d hdm).1, (h.mem d hdm).2.1⟩
  by_cases hempty : expand t.before ++ line = []
  · -- the text starts with the dashes
    obtain ⟨hbefore, hlinenil⟩ := List.append_eq_nil_iff.mp hempty
    have hnone : t.before = [] := by
      cases hb : t.before with
      | nil => rfl
      | cons d b =>
          rw [hb, expand_cons, List.append_eq_nil_iff] at hbefore
          exact absurd hbefore.1 (expandUnit_ne_nil d)
    have hdashed : DashedTail s₂ :=
      ⟨by rw [hat.tail_eq]; rfl, by rw [hbody, hempty]; simp, hat.lastch_ne⟩
    refine iff_of_false ?_ fun hkeeps ↦ hkeeps.1 hnone
    rintro hround
    obtain ⟨body, tail, himport, -⟩ := id hround
    obtain ⟨s, hs, -⟩ := Option.map_eq_some_iff.mp himport
    have hs' : importLoop o s₂ t.rest = some s := by rw [← hs₂, ← hs₁]; exact hs
    have hdashed' := importLoop_dashedTail ho hdashed (fun d hd ↦ (hrest d hd).2) hs'
    refine not_roundTrips_of_dashedTail hs hdashed' ?_ hround
    have hc : c = 45 := by
      have hcons := h.blocks_eq.symm.trans (by simpa using heq)
      rw [hnone, hline, hlinenil] at hcons
      exact (List.cons.inj hcons).1
    rw [h.text_head, hc]
  · have hbodyne : s₂.body ≠ [] := by rw [hbody]; exact hempty
    have htailne : s₂.tail ≠ [] := by rw [hat.tail_eq]; simp [tear]
    obtain ⟨s, hs, hsbody, hstail⟩ := importLoop_tail ho hbodyne htailne hat.lastch_ne hrest
    have hrun : importLoop o start (msgtoqwk true text) = some s := by rw [hs₁, hs₂, hs]
    have hstail' : s.tail = tear ++ expand (t.next :: t.rest) := by
      rw [hstail, hat.tail_eq, expand_cons, List.append_assoc]
    rw [roundTrips_iff_of_importLoop hrun, hsbody, hbody, hstail', htext]
    by_cases hnil : line = []
    · subst hnil
      have hbefore : t.before ≠ [] := by
        intro hb
        exact hempty (by rw [hb]; rfl)
      obtain ⟨b, hb⟩ := hclosed.closed.resolve_left hbefore
      have hexp : expand t.before ++ [] = expand b ++ [13, 10] := by
        rw [hb, expand_append, List.append_nil]
        rfl
      rw [hexp, joined_crlf_iff hbytes]
      simp [hbefore, hline]
    · have hlen : 2 ≤ line.length := by
        have hpos := List.length_pos_of_ne_nil hnil
        have hmod := hends.1
        rw [hline, List.length_append, show tear.length = 3 from rfl] at hmod
        omega
      refine iff_of_false (joined_long_ne hlen hcr) fun hkeeps ↦ hnil ?_
      simpa [hline] using hkeeps.2.1

/-- Exactly these texts survive export and import by a hub. -/
theorem roundTrips_iff_keeps {text : Str} {c : UInt8} (ho : o.fromHub = true)
    (hplain : PlainText text) (hhead : text.head? = some c)
    (hc : c ≠ 13 ∧ c ≠ 10 ∧ c ≠ 64) : RoundTrips o text ↔ Keeps o text := by
  obtain ⟨rest, h⟩ := exported hplain hhead ⟨hc.1, hc.2.2⟩
  by_cases hheader : NamesHeader o text
  · exact iff_of_false (not_roundTrips_of_namesHeader h hheader) fun hkeeps ↦
      hkeeps.header hheader
  · cases hfind : findTear [] [] (msgtoqwk true text) with
    | none =>
        refine iff_of_true (roundTrips_of_findTear_none ho h hheader hfind) ⟨hheader, ?_⟩
        intro t ht
        rw [hfind] at ht
        cases ht
    | some t =>
        rw [roundTrips_iff_of_findTear_some ho h hheader hfind]
        constructor
        · intro hkeeps
          refine ⟨hheader, fun t' ht' ↦ ?_⟩
          rw [hfind] at ht'
          cases ht'
          exact hkeeps
        · exact fun hkeeps ↦ hkeeps.tear t hfind

/-! ## A tear line with an 8-bit character at its end -/

def hub (ext : Bool) : Importer := ⟨true, ext, false, false⟩

/-- A line, and a tear line that ends in an `é`. -/
def eightBitTear : Str := [97, 13, 10, 45, 45, 45, 32, 233]

theorem plainText_eightBitTear : PlainText eightBitTear :=
  .char (by decide) (by decide) (.crlf (.char (by decide) (by decide)
    (.char (by decide) (by decide) (.char (by decide) (by decide)
      (.char (by decide) (by decide) (.char (by decide) (by decide) .nil))))))

theorem findTear_eightBitTear :
    findTear [] [] (msgtoqwk true eightBitTear) =
      some ⟨[97, qwkNewline], tear, 32, (msgtoqwk true eightBitTear).drop 6⟩ := by
  rfl

/-- The `é` is lost, whatever the importer takes for kludge lines. -/
theorem eightBitTear_not_roundTrips :
    PlainText eightBitTear ∧ eightBitTear.head? = some 97 ∧
      (∀ name ∈ headerNames, strnicmp eightBitTear name = false) ∧
      ∀ ext, ¬RoundTrips (hub ext) eightBitTear := by
  have hnames : ∀ name ∈ headerNames, strnicmp eightBitTear name = false := by decide +kernel
  refine ⟨plainText_eightBitTear, rfl, hnames, fun ext ↦ ?_⟩
  have hheader : ¬NamesHeader (hub ext) eightBitTear := by
    rintro ⟨-, name, hname, hcmp⟩
    rw [hnames name hname] at hcmp
    cases hcmp
  obtain ⟨rest, h⟩ := exported (c := 97) plainText_eightBitTear rfl (by decide)
  rw [roundTrips_iff_of_findTear_some rfl h hheader findTear_eightBitTear]
  rintro ⟨-, -, hlast⟩
  exact absurd (hlast 233 rfl) (by decide)

theorem roundTrips_iff_keeps_a : RoundTrips (hub true) [97] ↔ Keeps (hub true) [97] :=
  roundTrips_iff_keeps (c := 97) rfl (.char (by decide) (by decide) .nil) rfl (by decide)

end Synchronet.Sbbs3.Qwk
