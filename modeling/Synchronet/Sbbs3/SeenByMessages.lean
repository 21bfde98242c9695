import Synchronet.Sbbs3.SeenByLines

/-!
# SEEN-BY and PATH lines in a message

A message line by line, and the addresses its lines stand for.  `gen_psb` finds these addresses
in exactly the messages in which every line with a tag has an address or an empty line behind
it, and no address without a point follows one with a point.
-/

namespace Synchronet.Sbbs3.Echo

open Xpdev (Str)
open Search (drop_append_cons)

/-! ## Messages -/

def Tag.word : Tag → Str
  | .seenBy => seenByTag
  | .path => pathTag

deriving instance DecidableEq for Tag

inductive Line
  | text (s : Str)
  | addrs (tag : Tag) (tokens : List Token)

def Line.str : Line → Str
  | .text s => s
  | .addrs tag tokens => tag.word ++ wordsText tokens

/-- A line in a message: a text without a tag at its start or in it, or at most 79 characters. -/
def Line.WellFormed : Line → Prop
  | .text s =>
      13 ∉ s ∧ ¬seenByTag <+: s ∧ ¬10 :: seenByTag <:+: s ∧ ¬pathTag <:+: s
  | .addrs tag tokens => (Line.addrs tag tokens).str.length ≤ 79

inductive LineEnd
  | cr
  | crlf

def LineEnd.str : LineEnd → Str
  | .cr => [13]
  | .crlf => [13, 10]

/-- Lines, each behind a line end. -/
def body (e : LineEnd) (lines : List Line) : Str := lines.flatMap fun l ↦ e.str ++ l.str

/-- A text without lines of addresses, and the lines behind it. -/
structure Message where
  lineEnd : LineEnd
  head : Str
  lines : List Line
  head_cr : ¬13 :: seenByTag <:+: head
  head_lf : ¬10 :: seenByTag <:+: head
  head_path : ¬pathTag <:+: head
  lines_wellFormed : ∀ l ∈ lines, l.WellFormed

def Message.text (m : Message) : Str := m.head ++ body m.lineEnd m.lines

def Line.tokensOf (tag : Tag) : Line → List Token
  | .text _ => []
  | .addrs tag' tokens => if tag' = tag then tokens else []

/-- The addresses behind a tag. -/
def tokensOf (tag : Tag) (lines : List Line) : List Token := lines.flatMap (Line.tokensOf tag)

/-- The list of addresses that the lines with a tag stand for. -/
def Message.addrs (m : Message) (tag : Tag) (zone : UInt16) : List FidoAddr :=
  denote zone 0 (tokensOf tag m.lines)

/-- Every line with the tag has an address, or an empty line behind it that ends with a CR. -/
def TagsFollowed (tag : Tag) (e : LineEnd) : List Line → Prop
  | [] => True
  | .text _ :: lines => TagsFollowed tag e lines
  | .addrs tag' tokens :: lines =>
      (tag' = tag → tokens ≠ [] ∨ e = .cr ∧ lines.head? = some (.text [])) ∧
        TagsFollowed tag e lines

@[simp] theorem body_nil (e : LineEnd) : body e [] = [] := rfl

@[simp] theorem body_cons (e : LineEnd) (l : Line) (lines : List Line) :
    body e (l :: lines) = e.str ++ (l.str ++ body e lines) := by
  simp [body]

@[simp] theorem tokensOf_text (tag : Tag) (s : Str) (lines : List Line) :
    tokensOf tag (.text s :: lines) = tokensOf tag lines := rfl

theorem tokensOf_addrs_self (tag : Tag) (ts : List Token) (lines : List Line) :
    tokensOf tag (.addrs tag ts :: lines) = ts ++ tokensOf tag lines := by
  simp [tokensOf, Line.tokensOf]

theorem tokensOf_addrs_of_ne {tag tag' : Tag} (h : tag' ≠ tag) (ts : List Token)
    (lines : List Line) : tokensOf tag (.addrs tag' ts :: lines) = tokensOf tag lines := by
  simp [tokensOf, Line.tokensOf, h]

theorem body_append (e : LineEnd) (lines lines' : List Line) :
    body e (lines ++ lines') = body e lines ++ body e lines' := List.flatMap_append

theorem body_cases (e : LineEnd) (lines : List Line) :
    body e lines = [] ∨ ∃ r, body e lines = 13 :: r := by
  cases lines with
  | nil => exact Or.inl rfl
  | cons l lines => cases e <;> exact Or.inr ⟨_, rfl⟩

/-! ## Lines and tags -/

theorem Line.notMem_addrs {c : UInt8} {tag : Tag} (hword : c ∉ tag.word)
    (hc : ¬(c = 32 ∨ 46 ≤ c ∧ c ≤ 57)) (ts : List Token) : c ∉ (Line.addrs tag ts).str := by
  rw [str, List.mem_append, not_or]
  exact ⟨hword, notMem_wordsText hc ts⟩

theorem Line.cr_notMem {l : Line} (h : l.WellFormed) : 13 ∉ l.str := by
  cases l with
  | text s => exact h.1
  | addrs tag ts =>
      refine notMem_addrs ?_ (by decide) ts
      cases tag <;> decide

/-- A word with a byte that a line does not have is not in it. -/
theorem not_infix_of_notMem {word s : Str} {c : UInt8} (hc : c ∈ word) (h : c ∉ s) :
    ¬word <:+: s := fun hin ↦ h (hin.subset hc)

/-- A word that is not in a text is found behind it. -/
theorem find_append_body {word s : Str} (htail : 13 ∉ word.tail) (hne : word ≠ [])
    (h : ¬word <:+: s) (e : LineEnd) (lines : List Line) :
    Search.find word (s ++ body e lines) = Search.find word (body e lines) := by
  rcases body_cases e lines with hnil | ⟨r, hcons⟩
  · rw [hnil, List.append_nil, Search.find_eq_none_iff.mpr h, Search.find_eq_none_iff.mpr]
    exact fun hin ↦ hne (List.infix_nil.mp hin)
  · rw [hcons, Search.find_append_sep_cons htail hne h]

theorem find_body_eq_none {word : Str} (htail : 13 ∉ word.tail) (hne : word ≠ []) {e : LineEnd}
    {lines : List Line} (h : ∀ l ∈ lines, ¬word <:+: e.str ++ l.str) :
    Search.find word (body e lines) = none := by
  induction lines with
  | nil => exact Search.find_eq_none_iff.mpr fun hin ↦ hne (List.infix_nil.mp hin)
  | cons l lines ih =>
      rw [body_cons, ← List.append_assoc,
        find_append_body htail hne (h l List.mem_cons_self)]
      exact ih fun l' hl' ↦ h l' (List.mem_cons_of_mem _ hl')

/-! ## The next line with a tag -/

/-- What stands in front of a tag and is found with it. -/
def Tag.key : Tag → LineEnd → Str
  | .seenBy, .cr => [13]
  | .seenBy, .crlf => [10]
  | .path, _ => []

/-- The text from the next line with the tag on. -/
def Tag.next (tag : Tag) (e : LineEnd) : List Line → Option Str
  | [] => none
  | .text _ :: lines => tag.next e lines
  | .addrs tag' ts :: lines =>
      if tag' = tag then some (tag.key e ++ tag.word ++ (wordsText ts ++ body e lines))
      else tag.next e lines

/-- A text in which no line with the tag is found. -/
def Tag.Free : Tag → Str → Prop
  | .seenBy, s => ¬13 :: seenByTag <:+: s ∧ ¬10 :: seenByTag <:+: s
  | .path, s => ¬pathTag <:+: s

instance : (tag : Tag) → (s : Str) → Decidable (tag.Free s)
  | .seenBy, _ => inferInstanceAs (Decidable (_ ∧ _))
  | .path, _ => inferInstanceAs (Decidable (¬_))

def Line.HasTag (tag : Tag) : Line → Prop
  | .text _ => False
  | .addrs tag' _ => tag' = tag

theorem Line.not_seenBy_prefix {l : Line} (hwf : l.WellFormed) (h : ¬l.HasTag .seenBy) :
    ¬seenByTag <+: l.str := by
  cases l with
  | text s => exact hwf.2.1
  | addrs tag ts =>
      cases tag with
      | seenBy => exact absurd rfl h
      | path => simp [str, Tag.word, seenByTag, pathTag]

theorem Line.not_lf_infix {l : Line} (hwf : l.WellFormed) : ¬10 :: seenByTag <:+: l.str := by
  cases l with
  | text s => exact hwf.2.2.1
  | addrs tag ts =>
      refine not_infix_of_notMem List.mem_cons_self (notMem_addrs ?_ (by decide) ts)
      cases tag <;> decide

theorem Line.not_cr_infix {l : Line} (hwf : l.WellFormed) (word : Str) :
    ¬13 :: word <:+: l.str := not_infix_of_notMem List.mem_cons_self (cr_notMem hwf)

theorem Line.not_path_infix {l : Line} (hwf : l.WellFormed) (h : ¬l.HasTag .path) :
    ¬pathTag <:+: l.str := by
  cases l with
  | text s => exact hwf.2.2.2
  | addrs tag ts =>
      cases tag with
      | path => exact absurd rfl h
      | seenBy =>
          exact not_infix_of_notMem (c := 1) (by decide)
            (notMem_addrs (by decide) (by decide) ts)

/-- The tag is not found in a line without it. -/
theorem Line.not_tag_infix {l : Line} (hwf : l.WellFormed) {tag : Tag} (h : ¬l.HasTag tag)
    (e : LineEnd) : ¬tag.key e ++ tag.word <:+: e.str ++ l.str := by
  cases tag with
  | seenBy =>
      have hpre := not_seenBy_prefix hwf h
      cases e with
      | cr => simpa [Tag.key, Tag.word, LineEnd.str, List.infix_cons_iff, not_cr_infix hwf]
      | crlf => simpa [Tag.key, Tag.word, LineEnd.str, List.infix_cons_iff, not_lf_infix hwf]
  | path =>
      have hin := not_path_infix hwf h
      cases e <;> simpa [Tag.key, Tag.word, LineEnd.str, List.infix_cons_iff, pathTag] using hin

/-- The tag of a line is found behind the line end. -/
theorem Tag.find_word (tag : Tag) (e : LineEnd) (s : Str) :
    Search.find (tag.key e ++ tag.word) (e.str ++ (tag.word ++ s)) =
      some (tag.key e ++ tag.word ++ s) := by
  have hfind : Search.find (tag.key e ++ tag.word) (tag.key e ++ tag.word ++ s) =
      some (tag.key e ++ tag.word ++ s) := Search.find_of_prefix (List.prefix_append _ _)
  rw [← List.append_assoc]
  cases tag with
  | seenBy =>
      cases e with
      | cr => exact hfind
      | crlf => exact (Search.find_cons_of_not_prefix (by simp [key])).trans hfind
  | path =>
      cases e with
      | cr => exact (Search.find_cons_of_not_prefix (by simp [key, word, pathTag])).trans hfind
      | crlf =>
          refine (Search.find_cons_of_not_prefix (by simp [key, word, pathTag])).trans ?_
          exact (Search.find_cons_of_not_prefix (by simp [key, word, pathTag])).trans hfind

theorem Tag.word_tail (tag : Tag) (e : LineEnd) : 13 ∉ (tag.key e ++ tag.word).tail := by
  cases tag <;> cases e <;> decide

theorem Tag.word_ne_nil (tag : Tag) (e : LineEnd) : tag.key e ++ tag.word ≠ [] := by
  cases tag <;> cases e <;> decide

theorem Tag.find_body (tag : Tag) (e : LineEnd) {lines : List Line}
    (hwf : ∀ l ∈ lines, l.WellFormed) :
    Search.find (tag.key e ++ tag.word) (body e lines) = tag.next e lines := by
  induction lines with
  | nil =>
      exact Search.find_eq_none_iff.mpr fun hin ↦ tag.word_ne_nil e (List.infix_nil.mp hin)
  | cons l lines ih =>
      have hskip (h : ¬l.HasTag tag) :
          Search.find (tag.key e ++ tag.word) (body e (l :: lines)) = tag.next e lines := by
        rw [body_cons, ← List.append_assoc, find_append_body (tag.word_tail e) (tag.word_ne_nil e)
          (Line.not_tag_infix (hwf l List.mem_cons_self) h e)]
        exact ih fun l' hl' ↦ hwf l' (List.mem_cons_of_mem _ hl')
      cases l with
      | text s => exact hskip id
      | addrs tag' ts =>
          rw [next]
          split
          · case isTrue h =>
              subst h
              rw [body_cons, Line.str, List.append_assoc]
              exact tag'.find_word e _
          · case isFalse h => exact hskip h

/-- The next line with the tag is found behind a text without one. -/
theorem Tag.find_append_body {tag : Tag} {s : Str} (hs : tag.Free s) (e : LineEnd)
    {lines : List Line} (hwf : ∀ l ∈ lines, l.WellFormed) :
    tag.find (s ++ body e lines) = tag.next e lines := by
  cases tag with
  | path =>
      rw [find, Echo.find_append_body (by decide) (by decide) hs]
      exact path.find_body e hwf
  | seenBy =>
      have hcr := Echo.find_append_body (by decide) (by decide) hs.1 e lines
      have hlf := Echo.find_append_body (by decide) (by decide) hs.2 e lines
      rw [find, hcr, hlf]
      cases e with
      | cr =>
          have hnone : Search.find (10 :: seenByTag) (body .cr lines) = none :=
            find_body_eq_none (by decide) (by decide) fun l hl ↦ by
              simpa [LineEnd.str, List.infix_cons_iff] using Line.not_lf_infix (hwf l hl)
          have hfind : Search.find (13 :: seenByTag) (body .cr lines) = _ :=
            seenBy.find_body .cr hwf
          simp [hnone, hfind]
      | crlf =>
          have hnone : Search.find (13 :: seenByTag) (body .crlf lines) = none :=
            find_body_eq_none (by decide) (by decide) fun l hl ↦ by
              simpa [LineEnd.str, List.infix_cons_iff, seenByTag] using
                Line.not_cr_infix (hwf l hl) seenByTag
          have hfind : Search.find (10 :: seenByTag) (body .crlf lines) = _ :=
            seenBy.find_body .crlf hwf
          simp [hnone, hfind]

/-! ## Reading the lists -/

/-- The addresses from the next line with the tag on. -/
def listFrom (tag : Tag) (zone : UInt16) (addr : FidoAddr) (text : Str) :
    Option (List FidoAddr) :=
  match tag.find text with
  | none => some []
  | some p => psbLoop tag zone addr p

theorem genList_eq_listFrom (tag : Tag) (zone : UInt16) (text : Str) :
    genList tag zone text = listFrom tag zone ⟨0, 0, 0, 0⟩ text := rfl

theorem listFrom_of_find_eq {tag : Tag} {text text' : Str} (h : tag.find text = tag.find text')
    (zone : UInt16) (addr : FidoAddr) : listFrom tag zone addr text = listFrom tag zone addr text' := by
  rw [listFrom, listFrom, h]

theorem psbLoop_eq {tag : Tag} {p : Str} (h : tag.skip ≤ p.length) (zone : UInt16)
    (addr : FidoAddr) :
    psbLoop tag zone addr p =
      (listFrom tag zone (readAddrs zone addr (words (lineOf (p.drop tag.skip)))).2
        (p.drop tag.skip)).map
          ((readAddrs zone addr (words (lineOf (p.drop tag.skip)))).1 ++ ·) := by
  rw [psbLoop, dif_neg (Nat.not_lt.mpr h), listFrom]
  split <;> simp_all

theorem Tag.length_word (tag : Tag) (e : LineEnd) :
    (tag.key e ++ tag.word).length + 1 = tag.skip := by
  cases tag <;> cases e <;> rfl

theorem Tag.drop_skip (tag : Tag) (e : LineEnd) (c : UInt8) (s : Str) :
    (tag.key e ++ tag.word ++ c :: s).drop tag.skip = s := by
  rw [← tag.length_word e, drop_append_cons]

theorem Tag.skip_le_length (tag : Tag) (e : LineEnd) (c : UInt8) (s : Str) :
    tag.skip ≤ (tag.key e ++ tag.word ++ c :: s).length := by
  rw [List.length_append, ← tag.length_word e, List.length_cons]
  omega

theorem Tag.free_of_notMem {tag : Tag} {s : Str} (hcr : 13 ∉ s) (hlf : 10 ∉ s) (hpath : 1 ∉ s) :
    tag.Free s := by
  cases tag with
  | seenBy =>
      exact ⟨not_infix_of_notMem List.mem_cons_self hcr,
        not_infix_of_notMem List.mem_cons_self hlf⟩
  | path => exact not_infix_of_notMem List.mem_cons_self hpath

theorem Tag.Free.append_left {tag : Tag} {s t : Str} (h : tag.Free (s ++ t)) : tag.Free s := by
  have hin : s <:+: s ++ t := (List.prefix_append s t).isInfix
  cases tag with
  | seenBy => exact ⟨fun hcr ↦ h.1 (hcr.trans hin), fun hlf ↦ h.2 (hlf.trans hin)⟩
  | path => exact fun hpath ↦ h (hpath.trans hin)

theorem Tag.free_nil (tag : Tag) : tag.Free [] := free_of_notMem (by simp) (by simp) (by simp)

variable {tag : Tag} {e : LineEnd} {zone : UInt16} {addr : FidoAddr} {lines : List Line}

/-- Lists go on behind a text without the tag. -/
theorem listFrom_append_body {s : Str} (hs : tag.Free s) (hwf : ∀ l ∈ lines, l.WellFormed) :
    listFrom tag zone addr (s ++ body e lines) = listFrom tag zone addr (body e lines) := by
  refine listFrom_of_find_eq ?_ zone addr
  rw [Tag.find_append_body hs e hwf, ← tag.find_append_body tag.free_nil e hwf, List.nil_append]

theorem listFrom_body (hwf : ∀ l ∈ lines, l.WellFormed) :
    listFrom tag zone addr (body e lines) =
      (tag.next e lines).elim (some []) (psbLoop tag zone addr) := by
  rw [listFrom, ← List.nil_append (body e lines), Tag.find_append_body tag.free_nil e hwf]
  cases tag.next e lines <;> rfl

theorem listFrom_nil : listFrom tag zone addr [] = some [] := by
  cases tag <;> rfl

theorem listFrom_cons_of_not {l : Line} (hl : ¬l.HasTag tag)
    (hwf : ∀ l' ∈ l :: lines, l'.WellFormed) :
    listFrom tag zone addr (body e (l :: lines)) = listFrom tag zone addr (body e lines) := by
  rw [listFrom_body hwf, listFrom_body fun l' hl' ↦ hwf l' (List.mem_cons_of_mem _ hl')]
  cases l with
  | text s => rfl
  | addrs tag' ts =>
      have hne : tag' ≠ tag := hl
      rw [Tag.next, if_neg hne]

theorem listFrom_cons {ts : List Token} (hwf : ∀ l ∈ Line.addrs tag ts :: lines, l.WellFormed) :
    listFrom tag zone addr (body e (.addrs tag ts :: lines)) =
      psbLoop tag zone addr (tag.key e ++ tag.word ++ (wordsText ts ++ body e lines)) := by
  rw [listFrom_body hwf, Tag.next, if_pos rfl]
  rfl

/-- A line with addresses is read, and the ones behind it. -/
theorem listFrom_addrs {ts : List Token} (hne : ts ≠ [])
    (hwf : ∀ l ∈ Line.addrs tag ts :: lines, l.WellFormed) :
    listFrom tag zone addr (body e (.addrs tag ts :: lines)) =
      (listFrom tag zone (readAddrs zone addr (ts.map Token.text)).2 (body e lines)).map
        ((readAddrs zone addr (ts.map Token.text)).1 ++ ·) := by
  cases ts with
  | nil => exact absurd rfl hne
  | cons t ts =>
      have hchars (c : UInt8) (hc : ¬(c = 32 ∨ 46 ≤ c ∧ c ≤ 57)) : c ∉ t.text ++ wordsText ts := by
        rw [List.mem_append, not_or]
        exact ⟨t.notMem_text fun h ↦ hc (Or.inr h), notMem_wordsText hc ts⟩
      have hlen : (t.text ++ wordsText ts).length ≤ 100 := by
        have hline : (Line.addrs tag (t :: ts)).str.length ≤ 79 := hwf _ List.mem_cons_self
        rw [Line.str, wordsText_cons, List.length_append, List.length_cons] at hline
        omega
      have hline : lineOf (t.text ++ wordsText ts ++ body e lines) = t.text ++ wordsText ts :=
        lineOf_append (hchars 13 (by decide)) hlen (body_cases e lines)
      rw [listFrom_cons hwf, wordsText_cons, List.cons_append,
        psbLoop_eq (tag.skip_le_length e _ _), tag.drop_skip, hline,
        words_append_wordsText t.text_ne_nil (t.notMem_text (by decide)),
        listFrom_append_body
          (Tag.free_of_notMem (hchars 13 (by decide)) (hchars 10 (by decide)) (hchars 1 (by decide)))
          fun l hl ↦ hwf l (List.mem_cons_of_mem _ hl)]
      rfl

/-- After a tag without addresses the first byte of the line end is skipped. -/
theorem listFrom_empty {s : Str} {c : UInt8} (hbody : body e lines = c :: s)
    (hwf : ∀ l ∈ Line.addrs tag [] :: lines, l.WellFormed) :
    listFrom tag zone addr (body e (.addrs tag [] :: lines)) =
      (listFrom tag zone (readAddrs zone addr (words (lineOf s))).2 s).map
        ((readAddrs zone addr (words (lineOf s))).1 ++ ·) := by
  rw [listFrom_cons hwf, wordsText_nil, List.nil_append, hbody,
    psbLoop_eq (tag.skip_le_length e _ _), tag.drop_skip]

/-- An empty line takes the place of the addresses. -/
theorem listFrom_empty_text
    (hwf : ∀ l ∈ Line.addrs tag [] :: .text [] :: lines, l.WellFormed) :
    listFrom tag zone addr (body .cr (.addrs tag [] :: .text [] :: lines)) =
      listFrom tag zone addr (body .cr lines) := by
  have hline : lineOf (body .cr lines) = [] := by
    simpa using lineOf_append (s := []) (by simp) (by simp) (body_cases .cr lines)
  rw [listFrom_empty (s := body .cr lines) rfl hwf, hline, words, readAddrs]
  simp

/-- When every line with the tag is followed, all of the addresses are read. -/
theorem listFrom_eq_readAddrs (hwf : ∀ l ∈ lines, l.WellFormed)
    (h : TagsFollowed tag e lines) :
    listFrom tag zone addr (body e lines) =
      some (readAddrs zone addr ((tokensOf tag lines).map Token.text)).1 := by
  induction lines generalizing addr with
  | nil => exact listFrom_nil
  | cons l lines ih =>
      have hwf' : ∀ l ∈ lines, l.WellFormed := fun l hl ↦ hwf l (List.mem_cons_of_mem _ hl)
      cases l with
      | text s =>
          rw [listFrom_cons_of_not id hwf]
          exact ih hwf' h
      | addrs tag' ts =>
          by_cases htag : tag' = tag
          · subst htag
            rw [tokensOf_addrs_self]
            by_cases hne : ts = []
            · subst hne
              obtain ⟨rfl, hhead⟩ := (h.1 rfl).resolve_left (by simp)
              cases lines with
              | nil => simp at hhead
              | cons l lines =>
                  obtain rfl := Option.some.inj hhead
                  rw [listFrom_empty_text hwf, List.nil_append, ← ih hwf' h.2]
                  exact (listFrom_cons_of_not id hwf').symm
            · rw [listFrom_addrs hne hwf, ih hwf' h.2, List.map_append, readAddrs_append]
              rfl
          · have hnot : ¬(Line.addrs tag' ts).HasTag tag := htag
            rw [listFrom_cons_of_not hnot hwf, tokensOf_addrs_of_ne htag]
            exact ih hwf' h.2

/-- The text of a line that is not empty has a word. -/
theorem words_lineOf_ne_nil {s : Str} (hne : s ≠ []) (hcr : 13 ∉ s) (rest : Str) :
    words (lineOf (s ++ rest)) ≠ [] := by
  obtain ⟨c, s, rfl⟩ := List.exists_cons_of_ne_nil hne
  obtain ⟨t, ht⟩ := lineOf_cons (c := c) (s := s ++ rest)
    fun h ↦ hcr (h ▸ List.mem_cons_self)
  rw [List.cons_append, ht]
  exact words_ne_nil

/-- Behind the first byte of a line end the next line with the tag is found as before, unless it
is a line with a SEEN-BY behind a CR. -/
theorem listFrom_tail {l : Line} {s : Str} (hbody : body e (l :: lines) = 13 :: s)
    (hwf : ∀ l' ∈ l :: lines, l'.WellFormed)
    (h : e = .crlf ∨ tag = .path ∨ ¬l.HasTag tag) :
    listFrom tag zone addr s = listFrom tag zone addr (body e (l :: lines)) := by
  refine listFrom_of_find_eq ?_ zone addr
  rw [hbody]
  have hlf : Search.find (10 :: seenByTag) (13 :: s) = Search.find (10 :: seenByTag) s :=
    Search.find_cons_of_not_prefix (by simp)
  have hpath : Search.find pathTag (13 :: s) = Search.find pathTag s :=
    Search.find_cons_of_not_prefix (by simp [pathTag])
  cases tag with
  | path => exact hpath.symm
  | seenBy =>
      have hcr : Search.find (13 :: seenByTag) (13 :: s) = Search.find (13 :: seenByTag) s := by
        refine Search.find_cons_of_not_prefix ?_
        rw [List.prefix_cons_inj]
        cases e with
        | crlf =>
            obtain rfl : 10 :: (l.str ++ body .crlf lines) = s := by
              simpa [LineEnd.str] using hbody
            simp [seenByTag]
        | cr =>
            obtain rfl : l.str ++ body .cr lines = s := by simpa [LineEnd.str] using hbody
            have hl : ¬l.HasTag .seenBy := by simpa using h
            intro hpre
            refine Line.not_seenBy_prefix (hwf l List.mem_cons_self) hl ?_
            rcases body_cases .cr lines with hnil | ⟨r, hcons⟩
            · simpa [hnil] using hpre
            · rw [hcons] at hpre
              exact Search.prefix_of_prefix_append_sep (by decide) hpre
      rw [Tag.find, Tag.find, hcr, hlf]

/-- What stands behind the first byte of a line end has a word, unless it is an empty line. -/
theorem words_tail_ne_nil {l : Line} {s : Str} (hbody : body e (l :: lines) = 13 :: s)
    (hwf : l.WellFormed) (h : ¬(e = .cr ∧ l = .text [])) : words (lineOf s) ≠ [] := by
  cases e with
  | crlf =>
      obtain rfl : [10] ++ (l.str ++ body .crlf lines) = s := by simpa [LineEnd.str] using hbody
      exact words_lineOf_ne_nil (by simp) (by simp) _
  | cr =>
      obtain rfl : l.str ++ body .cr lines = s := by simpa [LineEnd.str] using hbody
      refine words_lineOf_ne_nil ?_ (Line.cr_notMem hwf) _
      cases l with
      | text s => simpa [Line.str] using h
      | addrs tag ts => cases tag <;> simp [Line.str, Tag.word, seenByTag, pathTag]

/-- A SEEN-BY line behind a tag without addresses is read as one, the tag of it included. -/
theorem words_seenBy_line {ts : List Token} (hwf : (Line.addrs .seenBy ts).WellFormed)
    (lines : List Line) :
    words (lineOf ((Line.addrs .seenBy ts).str ++ body e lines)) =
      seenByTag :: ts.map Token.text := by
  have hlen : (Line.addrs .seenBy ts).str.length ≤ 79 := hwf
  rw [lineOf_append (Line.cr_notMem hwf) (by omega) (body_cases e lines)]
  exact words_append_wordsText (by decide) (by decide) ts

theorem Line.seenBy_free {ts : List Token} :
    Tag.seenBy.Free (Line.addrs .seenBy ts).str :=
  Tag.free_of_notMem (notMem_addrs (by decide) (by decide) ts)
    (notMem_addrs (by decide) (by decide) ts) (notMem_addrs (by decide) (by decide) ts)

/-- A tag that is not followed makes an address of what is behind it. -/
theorem lt_length_of_not_followed {l : Line} {addrs : List FidoAddr}
    (hwf : ∀ l' ∈ Line.addrs tag [] :: l :: lines, l'.WellFormed)
    (h : listFrom tag zone addr (body e (.addrs tag [] :: l :: lines)) = some addrs)
    (hnot : ¬(e = .cr ∧ l = .text []))
    (ih : ∀ lines' addr addrs, lines' <:+ l :: lines →
      listFrom tag zone addr (body e lines') = some addrs →
        (tokensOf tag lines').length ≤ addrs.length) :
    (tokensOf tag (l :: lines)).length < addrs.length := by
  have hwf' : ∀ l' ∈ l :: lines, l'.WellFormed := fun l' hl' ↦ hwf l' (List.mem_cons_of_mem _ hl')
  obtain ⟨s, hbody⟩ : ∃ s, body e (l :: lines) = 13 :: s := by cases e <;> exact ⟨_, rfl⟩
  rw [listFrom_empty hbody hwf, Option.map_eq_some_iff] at h
  obtain ⟨rest, hrest, rfl⟩ := h
  rw [List.length_append, length_readAddrs]
  by_cases hskip : e = .crlf ∨ tag = .path ∨ ¬l.HasTag tag
  · rw [listFrom_tail hbody hwf' hskip] at hrest
    have hle := ih _ _ _ (List.suffix_refl _) hrest
    have hpos := List.length_pos_iff.mpr
      (words_tail_ne_nil hbody (hwf' l List.mem_cons_self) hnot)
    omega
  · push Not at hskip
    obtain ⟨hcr, htag, hl⟩ := hskip
    cases e with
    | crlf => exact absurd rfl hcr
    | cr =>
        cases tag with
        | path => exact absurd rfl htag
        | seenBy =>
            cases l with
            | text s => exact hl.elim
            | addrs tag ts =>
                obtain rfl : tag = .seenBy := hl
                obtain rfl : (Line.addrs .seenBy ts).str ++ body .cr lines = s := by
                  simpa [LineEnd.str] using hbody
                rw [listFrom_append_body Line.seenBy_free
                  fun l' hl' ↦ hwf' l' (List.mem_cons_of_mem _ hl')] at hrest
                have hle := ih _ _ _ (List.suffix_cons _ _) hrest
                rw [words_seenBy_line (hwf' _ List.mem_cons_self), tokensOf_addrs_self,
                  List.length_append, List.length_cons, List.length_map]
                omega

/-- At least as many addresses are read as there are, and more when a tag is not followed. -/
theorem length_tokensOf_le (hwf : ∀ l ∈ lines, l.WellFormed) {addrs : List FidoAddr}
    (h : listFrom tag zone addr (body e lines) = some addrs) :
    (tokensOf tag lines).length ≤ addrs.length ∧
      (¬TagsFollowed tag e lines → (tokensOf tag lines).length < addrs.length) := by
  induction hn : lines.length using Nat.strong_induction_on generalizing lines addr addrs with
  | _ n ih =>
      cases lines with
      | nil => simp [TagsFollowed, tokensOf]
      | cons l lines =>
          have hwf' : ∀ l ∈ lines, l.WellFormed := fun l hl ↦ hwf l (List.mem_cons_of_mem _ hl)
          rw [List.length_cons] at hn
          have ihlines {addr : FidoAddr} {addrs : List FidoAddr} :=
            @ih lines.length (by omega) addr lines hwf' addrs
          by_cases hl : l.HasTag tag
          swap
          · rw [listFrom_cons_of_not hl hwf] at h
            cases l with
            | text s => exact ihlines h rfl
            | addrs tag' ts =>
                rw [tokensOf_addrs_of_ne hl]
                refine ⟨(ihlines h rfl).1, fun hnot ↦ (ihlines h rfl).2 fun hlines ↦ ?_⟩
                exact hnot ⟨fun htag ↦ absurd htag hl, hlines⟩
          cases l with
          | text s => exact hl.elim
          | addrs tag' ts =>
              obtain rfl : tag' = tag := hl
              rw [tokensOf_addrs_self]
              by_cases hne : ts = []
              · subst hne
                by_cases hfollowed : e = .cr ∧ lines.head? = some (.text [])
                · obtain ⟨rfl, hhead⟩ := hfollowed
                  cases lines with
                  | nil => simp at hhead
                  | cons l lines =>
                      obtain rfl := Option.some.inj hhead
                      rw [listFrom_empty_text hwf,
                        ← listFrom_cons_of_not (l := .text []) id hwf'] at h
                      refine ⟨(ihlines h rfl).1, fun hnot ↦ (ihlines h rfl).2 fun hlines ↦ ?_⟩
                      exact hnot ⟨fun _ ↦ Or.inr ⟨rfl, rfl⟩, hlines⟩
                · have hlt : (tokensOf tag' lines).length < addrs.length := by
                    cases lines with
                    | nil =>
                        rw [listFrom_cons hwf, psbLoop, dif_pos] at h
                        · cases h
                        · rw [← tag'.length_word e]
                          simp
                    | cons l lines =>
                        refine lt_length_of_not_followed hwf h (by simpa using hfollowed) ?_
                        intro lines' addr addrs hsuffix hlist
                        have hlen := hsuffix.length_le
                        exact (ih lines'.length (by omega)
                          (fun l' hl' ↦ hwf' l' (hsuffix.subset hl')) hlist rfl).1
                  exact ⟨hlt.le, fun _ ↦ hlt⟩
              · rw [listFrom_addrs hne hwf, Option.map_eq_some_iff] at h
                obtain ⟨rest, hrest, rfl⟩ := h
                have hle := ihlines hrest rfl
                simp only [List.length_append, length_readAddrs, List.length_map]
                refine ⟨by omega, fun hnot ↦ ?_⟩
                have hlt := hle.2 fun hlines ↦ hnot ⟨fun _ ↦ Or.inl hne, hlines⟩
                omega

/-! ## Messages that are read as they are meant -/

theorem Message.head_free (m : Message) (tag : Tag) : tag.Free m.head := by
  cases tag with
  | seenBy => exact ⟨m.head_cr, m.head_lf⟩
  | path => exact m.head_path

/-- The list that is read when every line with the tag is followed. -/
theorem Message.genList_eq (m : Message) {tag : Tag} (zone : UInt16)
    (h : TagsFollowed tag m.lineEnd m.lines) :
    genList tag zone m.text =
      some (readAddrs zone ⟨0, 0, 0, 0⟩ ((tokensOf tag m.lines).map Token.text)).1 := by
  rw [genList_eq_listFrom, text, listFrom_append_body (m.head_free tag) m.lines_wellFormed]
  exact listFrom_eq_readAddrs m.lines_wellFormed h

/-- The addresses of a tag are found if and only if each line with it has an address, or an empty
line behind it, and no address without a point follows one with a point. -/
theorem Message.genList_eq_addrs_iff (m : Message) (tag : Tag) (zone : UInt16) :
    genList tag zone m.text = some (m.addrs tag zone) ↔
      TagsFollowed tag m.lineEnd m.lines ∧ (tokensOf tag m.lines).IsChain PointKept := by
  have hpoints : (readAddrs zone ⟨0, 0, 0, 0⟩ ((tokensOf tag m.lines).map Token.text)).1 =
      m.addrs tag zone ↔ (tokensOf tag m.lines).IsChain PointKept := by
    rw [addrs, readAddrs_text_eq_denote_iff _ (Or.inl rfl)]
    simp
  constructor
  · intro h
    have hfollowed : TagsFollowed tag m.lineEnd m.lines := by
      rw [genList_eq_listFrom, text,
        listFrom_append_body (m.head_free tag) m.lines_wellFormed] at h
      by_contra hnot
      have hlt := (length_tokensOf_le m.lines_wellFormed h).2 hnot
      simp [addrs] at hlt
    rw [m.genList_eq zone hfollowed, Option.some.injEq, hpoints] at h
    exact ⟨hfollowed, h⟩
  · rintro ⟨hfollowed, hkept⟩
    rw [m.genList_eq zone hfollowed, hpoints.mpr hkept]

end Synchronet.Sbbs3.Echo
