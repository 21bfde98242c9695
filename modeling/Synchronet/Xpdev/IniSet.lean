import Synchronet.Xpdev.IniEdit
import Synchronet.Xpdev.IniLookup

/-!
# A string that was set is read back

`iniSetString` writes a plain line or a literal, and keeps the line that is there if its value,
read in the mode of the new one, is the written text.  `iniGetString` reads every line with
literals, and finds the section by its own search.
-/

namespace Synchronet.Xpdev

open Trim
open Smblib (isspace strlwr)

/-! ## Trimmed names -/

/-- No white space at the ends. -/
def Trimmed (s : Str) : Prop :=
  (∀ c ∈ s.head?, isspace c = false) ∧ ∀ c ∈ s.getLast?, isspace c = false

theorem Trimmed.skipWhitespace {s : Str} (h : Trimmed s) : skipWhitespace s = s :=
  dropWhile_eq_self_of_head h.1

theorem Trimmed.truncsp {s : Str} (h : Trimmed s) : truncsp s = s :=
  rdropWhile_eq_self_of_getLast h.2

theorem trimmed_truncsp_skipWhitespace (s : Str) : Trimmed (truncsp (skipWhitespace s)) := by
  refine ⟨?_, getLast_rdropWhile isspace _⟩
  rw [truncsp, skipWhitespace, ← dropWhile_rdropWhile]
  exact head_dropWhile isspace _

theorem trimmed_truncsp_take (s : Str) (n : ℕ) : Trimmed (truncsp ((skipWhitespace s).take n)) := by
  have := trimmed_truncsp_skipWhitespace ((skipWhitespace s).take n)
  rwa [show skipWhitespace ((skipWhitespace s).take n) = (skipWhitespace s).take n from ?_] at this
  refine dropWhile_eq_self_of_head fun c hc ↦ head_dropWhile isspace s c ?_
  rw [List.head?_take] at hc
  split at hc
  · cases hc
  · exact hc

theorem isspace_lower (c : UInt8) :
    isspace (if 65 ≤ c ∧ c ≤ 90 then c + 32 else c) = isspace c :=
  Words.forall_uint8 (p := fun c ↦ isspace (if 65 ≤ c ∧ c ≤ 90 then c + 32 else c) = isspace c)
    (by decide +kernel) c

/-- A name that differs only in case is trimmed as well. -/
theorem Trimmed.of_stricmp {a b : Str} (ha : Trimmed a) (h : stricmp a b = true) : Trimmed b := by
  have hmap : strlwr a = strlwr b := by simpa [stricmp] using h
  have hlower : ∀ s : Str, Trimmed s ↔ Trimmed (strlwr s) := by
    intro s
    simp only [Trimmed, strlwr, List.head?_map, List.getLast?_map]
    constructor
    · rintro ⟨h1, h2⟩
      constructor <;> intro c hc <;> obtain ⟨d, hd, rfl⟩ := Option.mem_map.mp hc <;>
        rw [isspace_lower]
      · exact h1 d hd
      · exact h2 d hd
    · rintro ⟨h1, h2⟩
      constructor <;> intro c hc <;> rw [← isspace_lower]
      · exact h1 _ (Option.mem_map_of_mem _ hc)
      · exact h2 _ (Option.mem_map_of_mem _ hc)
  rwa [hlower, ← hmap, ← hlower]

theorem trimmed_of_keyOf {str name : Str} (h : keyOf str = some name) : Trimmed name := by
  simp only [keyOf] at h
  split at h
  · cases h
  · obtain ⟨sep, -, rfl⟩ := Option.map_eq_some_iff.mp h
    exact trimmed_truncsp_take str sep.1

/-- No line holds a key with white space at one of its ends. -/
theorem trimmed_of_holds {key s : Str} (h : holds key s = true) : Trimmed key := by
  have hstop := not_stops_of_holds h
  obtain ⟨name, hname, hkey⟩ : ∃ name, keyOf (lineBuf s) = some name ∧ stricmp name key = true := by
    simpa [holds, hstop, Option.any_eq_true] using h
  exact (trimmed_of_keyOf hname).of_stricmp hkey

/-! ## The line of a key -/

/-- `;`, `[`, `]`, `=`, `:` and `|` -/
def punctuation : Str := [iniCommentChar, 0x5b, 0x5d, 0x3d, 0x3a, 0x7c]

def NoPunctuation (name : Str) : Prop := ∀ c ∈ name, c ∉ punctuation

instance : DecidablePred NoPunctuation := fun name ↦
  inferInstanceAs (Decidable (∀ c ∈ name, c ∉ punctuation))

def quoted (value : Str) : Str := 0x22 :: escaped value ++ [0x22]

/-- The separator, as `iniSetString` chooses it. -/
def sepOf (value : Str) : UInt8 := if writesLiteral (some value) then 0x3a else 0x3d

/-- The text for a value, as `iniSetString` writes it. -/
def textOf (value : Str) : Str := if writesLiteral (some value) then quoted value else value

def lineOf (key value : Str) : Str := key ++ sepOf value :: textOf value

/-- A key and a value as `iniSetString` takes them: no punctuation in the name, and a value
that is not empty and whose escaped form fits. -/
structure Settable (key value : Str) : Prop where
  name : NoPunctuation key
  ne_nil : value ≠ []
  noNul : 0 ∉ value
  text : (escaped value).length + 2 < iniMaxValueLen
  line : key.length + 1 + ((escaped value).length + 2) < iniMaxLineLen

variable {key value : Str}

theorem length_textOf_le (value : Str) : (textOf value).length ≤ (escaped value).length + 2 := by
  have := length_le_escaped value
  unfold textOf
  split
  · simp [quoted]
  · omega

theorem Settable.length_lineOf (h : Settable key value) :
    (lineOf key value).length < iniMaxLineLen := by
  have := length_textOf_le value
  have := h.line
  simp only [lineOf, List.length_append, List.length_cons]
  omega

theorem Settable.iniSetString_eq (h : Settable key value) (list : List Str)
    (section_ : Option Str) :
    iniSetString list section_ key (some value) {} =
      setLine (iniAddSection list section_ {}) section_ key (lineOf key value) (textOf value)
        (writesLiteral (some value)) := by
  have hline := h.length_lineOf
  have hkey : ∀ text : Str, text = textOf value →
      keyLine key ([sepOf value], text) {} = lineOf key value := by
    rintro text rfl
    rw [keyLine, safecopy, List.take_of_length_le]
    · simp [lineOf, List.rightpad]
    · simpa [lineOf, List.rightpad, Nat.add_assoc] using Nat.le_sub_one_of_lt hline
  have htext : valueText value (writesLiteral (some value)) {} =
      some ([sepOf value], textOf value) := by
    cases hw : writesLiteral (some value) with
    | false => simp [valueText, sepOf, textOf, hw]
    | true =>
        have hfit := h.text
        have hesc := cEscapeStr_eq value (iniMaxValueLen - 1) (by omega)
        have htake : safecopy iniMaxValueLen (0x22 :: escaped value ++ [0x22]) = quoted value :=
          List.take_of_length_le (by simpa [Nat.add_assoc] using Nat.le_sub_one_of_lt hfit)
        simp only [valueText, sepOf, textOf, hw, if_true, hesc, Option.map_some, htake]
        rfl
  simp only [iniSetString, iniSetStringWith, Option.getD_some, htext]
  exact congrArg (fun line ↦ setLine _ section_ key line (textOf value) _) (hkey _ rfl)

theorem writesLiteral_eq_false {value : Str} (h : writesLiteral (some value) = false) :
    (∀ c ∈ value, ¬ c < 0x20) ∧ value.head? ≠ some 0x20 ∧ value.getLast? ≠ some 0x20 := by
  simpa [writesLiteral, strContainsCtrlChar, and_assoc] using h

theorem isspace_eq_false {c : UInt8} (h : ¬ c < 0x20) (hc : c ≠ 0x20) : isspace c = false := by
  revert h hc
  exact Words.forall_uint8 (p := fun c ↦ ¬ c < 0x20 → c ≠ 0x20 → isspace c = false)
    (by decide +kernel) c

/-- The text that is written is not blank at its ends. -/
theorem Settable.trimmed_textOf (h : Settable key value) :
    textOf value ≠ [] ∧ Trimmed (textOf value) := by
  unfold textOf
  split
  · refine ⟨by simp [quoted], ?_, ?_⟩
    · intro c hc
      cases hc
      rfl
    · intro c hc
      rw [quoted, List.getLast?_concat] at hc
      cases hc
      rfl
  case isFalse hw =>
    obtain ⟨hctrl, hhead, hlast⟩ := writesLiteral_eq_false (by simpa using hw)
    refine ⟨h.ne_nil, fun c hc ↦ ?_, fun c hc ↦ ?_⟩
    · exact isspace_eq_false (hctrl c (List.mem_of_mem_head? hc)) fun h' ↦ hhead (h' ▸ hc)
    · exact isspace_eq_false (hctrl c (List.mem_of_mem_getLast? hc)) fun h' ↦ hlast (h' ▸ hc)

theorem sepOf_eq (value : Str) : sepOf value = 0x3d ∨ sepOf value = 0x3a := by
  unfold sepOf
  split
  · exact .inr rfl
  · exact .inl rfl

theorem getLast_append_cons (xs ys : Str) (c : UInt8) (h : ys ≠ []) :
    (xs ++ c :: ys).getLast? = ys.getLast? := by
  rw [List.append_cons, List.getLast?_append_of_ne_nil _ h]

/-- A line is kept as it is where it starts and ends without white space. -/
theorem Settable.trimmed_lineOf (h : Settable key value) (hkey : Trimmed key) :
    Trimmed (lineOf key value) := by
  obtain ⟨hne, htext⟩ := h.trimmed_textOf
  refine ⟨fun c hc ↦ ?_, fun c hc ↦ ?_⟩
  · cases key with
    | nil =>
        cases hc
        rcases sepOf_eq value with hs | hs <;> rw [hs] <;> rfl
    | cons d key =>
        exact hkey.1 c hc
  · rw [lineOf, getLast_append_cons _ _ _ hne] at hc
    exact htext.2 c hc

theorem Settable.lineBuf_lineOf (h : Settable key value) (hkey : Trimmed key) :
    lineBuf (lineOf key value) = lineOf key value := by
  rw [lineBuf, safecopy, List.take_of_length_le (Nat.le_sub_one_of_lt h.length_lineOf), afterIsEof,
    (h.trimmed_lineOf hkey).truncsp, ite_self]

theorem Settable.opensSection_lineOf (h : Settable key value) (hkey : Trimmed key) :
    opensSection (lineOf key value) = false := by
  rw [opensSection, (h.trimmed_lineOf hkey).skipWhitespace]
  cases key with
  | nil => rcases sepOf_eq value with hs | hs <;> rw [lineOf, hs] <;> rfl
  | cons c key =>
      have hc := h.name c (by simp)
      simp only [punctuation, List.mem_cons, not_or] at hc
      simpa [lineOf] using hc.2.1

theorem Settable.separator_lineOf (h : Settable key value) :
    separator (lineOf key value) = some (key.length, writesLiteral (some value)) := by
  have hkey : ∀ c ∈ key, c ≠ 0x3d ∧ c ≠ 0x3a := fun c hc ↦ by
    have := h.name c hc
    simp only [punctuation, List.mem_cons, not_or] at this
    exact ⟨this.2.2.2.1, this.2.2.2.2.1⟩
  rw [lineOf, separator_append _ hkey, separator_cons, sepOf]
  cases writesLiteral (some value) <;> simp

theorem Settable.keyOf_lineOf (h : Settable key value) (hkey : Trimmed key) :
    keyOf (lineOf key value) = some key := by
  have hcomment : (lineOf key value).head? ≠ some iniCommentChar := by
    cases key with
    | nil =>
        rcases sepOf_eq value with hs | hs <;> rw [lineOf, hs, List.nil_append, List.head?_cons] <;>
          decide
    | cons c key =>
        have hc := h.name c (by simp)
        simp only [punctuation, List.mem_cons, not_or] at hc
        simpa [lineOf] using hc.1
  have hopen := h.opensSection_lineOf hkey
  rw [opensSection, (h.trimmed_lineOf hkey).skipWhitespace] at hopen
  simp only [keyOf, (h.trimmed_lineOf hkey).skipWhitespace]
  rw [if_neg (by simpa [hcomment] using hopen), h.separator_lineOf, Option.map_some, lineOf,
    List.take_left' rfl, hkey.truncsp]

theorem unquote_quoted (value : Str) : unquote (quoted value) = (true, escaped value) := by
  have hlast : strrchr (escaped value ++ [0x22]) 0x22 = some (escaped value).length := by
    simp [strrchr, List.idxOf?_cons]
  rw [quoted, List.cons_append, unquote, hlast]
  simp

theorem truncnl_quoted (value : Str) : truncnl (quoted value) = quoted value := by
  refine rdropWhile_eq_self_of_getLast fun c hc ↦ ?_
  rw [quoted, List.getLast?_concat] at hc
  cases hc
  rfl

/-- The value is read back from its line, and text stands where it starts. -/
theorem Settable.valueOf_lineOf (h : Settable key value) (hkey : Trimmed key) :
    ∃ vp, valueOf true (lineOf key value) = some (vp, value) ∧ (lineOf key value).drop vp ≠ [] := by
  obtain ⟨hne, htext⟩ := h.trimmed_textOf
  have hv : skipWhitespace ((lineOf key value).drop (key.length + 1)) = textOf value := by
    rw [lineOf, List.append_cons, List.drop_left' (by simp), htext.skipWhitespace]
  have hvp : (lineOf key value).length - (textOf value).length = key.length + 1 := by
    simp only [lineOf, List.length_append, List.length_cons]
    omega
  rw [valueOf, (h.trimmed_lineOf hkey).skipWhitespace, h.separator_lineOf, Option.elim_some, valueAt]
  simp only [hv, hvp, Bool.true_and]
  cases hw : writesLiteral (some value) with
  | false =>
      refine ⟨key.length + 1, ?_, ?_⟩
      · rw [if_neg (by simp), htext.truncsp, textOf, if_neg (by simp [hw])]
      · rw [lineOf, List.append_cons, List.drop_left' (by simp)]
        exact hne
  | true =>
      have htext' : textOf value = quoted value := by simp [textOf, hw]
      refine ⟨key.length + 1 + 1, ?_, ?_⟩
      · rw [if_pos rfl, htext', truncnl_quoted, unquote_quoted]
        simp [cUnescapeStr_escaped value h.noNul]
      · rw [lineOf, List.append_cons, ← List.drop_drop, List.drop_left' (by simp), htext', quoted]
        simp

theorem Settable.not_isEof (h : Settable key value) (hkey : Trimmed key) :
    isEof (safecopy iniMaxLineLen (lineOf key value)) = false := by
  rw [safecopy, List.take_of_length_le (Nat.le_sub_one_of_lt h.length_lineOf), isEof,
    (h.trimmed_lineOf hkey).truncsp, Bool.and_eq_false_iff]
  right
  rw [stricmp, beq_eq_false_iff_ne]
  intro heq
  have hmem : (if 65 ≤ sepOf value ∧ sepOf value ≤ 90 then sepOf value + 32 else sepOf value) ∈
      strlwr (lineOf key value) := List.mem_map_of_mem (by simp [lineOf])
  rw [heq] at hmem
  rcases sepOf_eq value with hs | hs <;> rw [hs] at hmem <;> revert hmem <;> decide

theorem Settable.holds_lineOf (h : Settable key value) (hkey : Trimmed key) :
    holds key (lineOf key value) = true := by
  have hbuf := h.lineBuf_lineOf hkey
  have hstop : stops (lineOf key value) = false := by
    rw [stops, h.not_isEof hkey, hbuf, h.opensSection_lineOf hkey]
    rfl
  simp [holds, hstop, hbuf, h.keyOf_lineOf hkey, stricmp]

/-- The new line is not a header. -/
theorem Settable.nameIn_lineOf (h : Settable key value) (hkey : Trimmed key) :
    nameIn (lineOf key value) = none := by
  apply sectionName_eq_none
  by_cases hhead : (safecopy iniMaxValueLen (lineOf key value)).head? = some 0x21
  · exact afterIsEof_head _ hhead
  · rw [afterIsEof, if_neg hhead]
    by_contra ho
    have ho : opensSection (safecopy iniMaxValueLen (lineOf key value)) = true := by simpa using ho
    have := opensSection_of_take ho
    rw [h.opensSection_lineOf hkey] at this
    cases this

theorem Settable.length_value (h : Settable key value) :
    value.take (iniMaxValueLen - 1) = value := by
  have := length_le_escaped value
  have := h.text
  exact List.take_of_length_le (Nat.le_sub_one_of_lt (by omega))

/-- What a search finds in the new line. -/
theorem Settable.stringAt_lineOf (h : Settable key value) (hkey : Trimmed key)
    (deflt : Option Str) (list : List Str) :
    stringAt blankText key deflt (lineOf key value :: list) = some (some value) := by
  obtain ⟨vp, hv, hdrop⟩ := h.valueOf_lineOf hkey
  rw [stringAt_hold _ (h.holds_lineOf hkey), h.lineBuf_lineOf hkey, hv, Option.map_some,
    if_neg (by simpa [blankText] using hdrop), h.length_value]

/-! ## The lines of the section after a set -/

/-- The existing line that is kept: its value, read in the mode of the new one, is the text. -/
def Kept (key value s : Str) : Prop :=
  holds key s = true ∧ ∃ v, valueOf (writesLiteral (some value)) (lineBuf s) = some v ∧
    v.2.take (iniMaxValueLen - 1) = textOf value

theorem holds_of_passes {s : Str} (h : passes key s = true) : holds key s = false := by
  simp only [passes, Bool.and_eq_true, Bool.not_eq_true'] at h
  exact h.2

theorem searched_stop {s : Str} (list : List Str) (h : stops s = true) :
    searched key (s :: list) = [] := by
  simp [searched, h]

theorem searched_hold {s : Str} (list : List Str) (h : holds key s = true) :
    searched key (s :: list) = [s] := by
  simp [searched, h, not_stops_of_holds h]

/-- Either an existing line is kept, or the new one is among the lines. -/
theorem Settable.kept_or_written (h : Settable key value) {lines lines' : List Str}
    (hset : SetLine key (lineOf key value) (textOf value) (writesLiteral (some value))
      lines lines') :
    (lines' = lines ∧ ∃ s ∈ searched key lines, Kept key value s) ∨
    ((∃ pre post, lines' = pre ++ lineOf key value :: post ∧ ∀ s ∈ pre ++ post, s ∈ lines) ∧
      ∀ s ∈ searched key lines, ¬ Kept key value s) := by
  have hne := h.trimmed_textOf.1
  have hnot : ∀ {pre : List Str}, (∀ s ∈ pre, passes key s = true) →
      ∀ s ∈ pre, ¬ Kept key value s := fun hpass s hs hk ↦ by
    have := holds_of_passes (hpass s hs)
    rw [hk.1] at this
    cases this
  cases hset with
  | @insert kept blank tail hpass hread hblank htail =>
      refine .inr ⟨⟨kept, blank ++ tail, rfl, fun s hs ↦ by simpa [or_assoc] using hs⟩, ?_⟩
      rw [searched_append _ _ hpass]
      have : searched key tail = [] := by
        cases tail with
        | nil => rfl
        | cons s tail => exact searched_stop tail (htail s rfl).1
      rw [this, List.append_nil]
      exact hnot hpass
  | @overwrite pre post s hpass hread hstop hs =>
      rw [if_neg hne, searched_append _ _ hpass, searched_stop post hstop, List.append_nil]
      exact .inr ⟨⟨pre, post, rfl, fun t ht ↦ by
        rcases List.mem_append.mp ht with ht | ht <;> simp [ht]⟩, hnot hpass⟩
  | @replace pre post s v hpass hread hhold hv =>
      rw [searched_append _ _ hpass, searched_hold post hhold]
      split
      case isTrue htext => exact .inl ⟨rfl, s, by simp, hhold, v, hv, htext⟩
      case isFalse htext =>
        refine .inr ⟨⟨pre, post, rfl, fun t ht ↦ by
          rcases List.mem_append.mp ht with ht | ht <;> simp [ht]⟩, fun t ht ↦ ?_⟩
        rcases List.mem_append.mp ht with ht | ht
        · exact hnot hpass t ht
        · rw [List.mem_singleton.mp ht]
          rintro ⟨-, w, hw, hw'⟩
          rw [hv] at hw
          cases hw
          exact htext hw'

theorem stringAt_append_eq {pre rest : List Str} (hpass : ∀ s ∈ pre, passes key s = true) :
    (∀ deflt, stringAt blankText key deflt (pre ++ rest) = some (some value)) ↔
      (∀ s ∈ pre, readable true s = true) ∧
        ∀ deflt, stringAt blankText key deflt rest = some (some value) := by
  simp only [stringAt_append _ _ hpass]
  by_cases hread : pre.all (readable true) = true
  · simp only [hread, if_true]
    exact (and_iff_right (List.all_eq_true.mp hread)).symm
  · have : ¬ ∀ s ∈ pre, readable true s = true := fun h' ↦ hread (List.all_eq_true.mpr h')
    simp [hread, this]

theorem Settable.stringAt_kept (h : Settable key value) {s : Str} (list : List Str)
    (hs : holds key s = true) :
    (∀ deflt, stringAt blankText key deflt (s :: list) = some (some value)) ↔
      ∃ v, valueOf true (lineBuf s) = some v ∧ v.2.take (iniMaxValueLen - 1) = value := by
  simp only [stringAt_hold _ hs]
  constructor
  · intro hall
    obtain ⟨v, hv, heq⟩ := Option.map_eq_some_iff.mp (hall none)
    refine ⟨v, hv, ?_⟩
    split at heq
    · cases heq
    · exact Option.some_inj.mp heq
  · rintro ⟨v, hv, htake⟩ deflt
    have htext : blankText s v = false := by
      by_contra hb
      have := blankValue_of_blankText (by simpa using hb) hv
      have : v.2 = [] := by simpa [blankValue] using this
      exact h.ne_nil (by rw [← htake, this, List.take_nil])
    rw [hv, Option.map_some, htext, if_neg (by simp), htake]

/-- What the search finds in the lines after the set. -/
theorem Settable.stringAt_setLine (h : Settable key value) (hkey : Trimmed key)
    {lines lines' : List Str}
    (hset : SetLine key (lineOf key value) (textOf value) (writesLiteral (some value))
      lines lines') :
    (∀ deflt, stringAt blankText key deflt lines' = some (some value)) ↔
      (∀ s ∈ searched key lines, holds key s = false → readable true s = true) ∧
      ∀ s ∈ searched key lines, Kept key value s →
        ∃ v, valueOf true (lineBuf s) = some v ∧ v.2.take (iniMaxValueLen - 1) = value := by
  have hnot : ∀ {s : Str}, passes key s = true → ¬ Kept key value s := fun hp hk ↦ by
    have := holds_of_passes hp
    rw [hk.1] at this
    cases this
  -- the lines in front of the new one, where none of the lines is kept
  have hwritten : ∀ {pre post searched' : List Str}, (∀ s ∈ pre, passes key s = true) →
      (∀ s ∈ searched', ¬ Kept key value s) →
      ((∀ s ∈ pre, readable true s = true) ↔
        ∀ s ∈ searched', holds key s = false → readable true s = true) →
      ((∀ deflt, stringAt blankText key deflt (pre ++ lineOf key value :: post) =
          some (some value)) ↔
        (∀ s ∈ searched', holds key s = false → readable true s = true) ∧
        ∀ s ∈ searched', Kept key value s →
          ∃ v, valueOf true (lineBuf s) = some v ∧ v.2.take (iniMaxValueLen - 1) = value) := by
    intro pre post searched' hpass hkept hread
    rw [stringAt_append_eq hpass, hread]
    constructor
    · exact fun hr ↦ ⟨hr.1, fun s hs hk ↦ absurd hk (hkept s hs)⟩
    · exact fun hr ↦ ⟨hr.1, fun deflt ↦ h.stringAt_lineOf hkey deflt post⟩
  cases hset with
  | @insert kept blank tail hpass hread hblank htail =>
      have hsearch : searched key (kept ++ blank ++ tail) = kept ++ blank := by
        rw [searched_append _ _ hpass]
        cases tail with
        | nil => exact List.append_nil _
        | cons s tail => rw [searched_stop tail (htail s rfl).1, List.append_nil]
      rw [hsearch]
      refine hwritten (fun s hs ↦ hpass s (by simp [hs])) (fun s hs ↦ hnot (hpass s hs)) ?_
      constructor
      · intro hr s hs _
        rcases List.mem_append.mp hs with hs | hs
        · exact hr s hs
        · rw [hblank s hs]
          rfl
      · exact fun hr s hs ↦ hr s (by simp [hs]) (holds_of_passes (hpass s (by simp [hs])))
  | @overwrite pre post s hpass hread hstop hs =>
      rw [if_neg h.trimmed_textOf.1, searched_append _ _ hpass, searched_stop post hstop,
        List.append_nil]
      refine hwritten hpass (fun s hs ↦ hnot (hpass s hs)) ?_
      exact ⟨fun hr s hs _ ↦ hr s hs, fun hr s hs ↦ hr s hs (holds_of_passes (hpass s hs))⟩
  | @replace pre post s v hpass hread hhold hv =>
      rw [searched_append _ _ hpass, searched_hold post hhold]
      have hpre : (∀ s ∈ pre, readable true s = true) ↔
          ∀ t ∈ pre ++ [s], holds key t = false → readable true t = true := by
        constructor
        · intro hr t ht hf
          rcases List.mem_append.mp ht with ht | ht
          · exact hr t ht
          · rw [List.mem_singleton.mp ht, hhold] at hf
            cases hf
        · exact fun hr t ht ↦ hr t (by simp [ht]) (holds_of_passes (hpass t ht))
      split
      case isTrue htext =>
        rw [stringAt_append_eq hpass, hpre, h.stringAt_kept post hhold]
        constructor
        · rintro ⟨hr, hv'⟩
          refine ⟨hr, fun t ht hk ↦ ?_⟩
          rcases List.mem_append.mp ht with ht | ht
          · exact absurd hk (hnot (hpass t ht))
          · rw [List.mem_singleton.mp ht]
            exact hv'
        · exact fun hr ↦ ⟨hr.1, hr.2 s (by simp) ⟨hhold, v, hv, htext⟩⟩
      case isFalse htext =>
        refine hwritten hpass (fun t ht ↦ ?_) hpre
        rcases List.mem_append.mp ht with ht | ht
        · exact hnot (hpass t ht)
        · rw [List.mem_singleton.mp ht]
          rintro ⟨-, w, hw, hw'⟩
          rw [hv] at hw
          cases hw
          exact htext hw'

/-! ## The header that is added -/

theorem strListSplit_singleton {s : Str} (h : iniSectionNameSep ∉ s) :
    strListSplit s iniSectionNameSep = if s = [] then [] else [s] := by
  rw [strListSplit, List.splitOn_eq_singleton h]
  split <;> simp [*]

/-- The name without white space at its ends. -/
def trim (s : Str) : Str := truncsp (skipWhitespace s)

theorem skipWhitespace_truncsp (s : Str) : skipWhitespace (truncsp s) = trim s :=
  dropWhile_rdropWhile isspace s

theorem trim_trim (s : Str) : trim (trim s) = trim s := by
  have := trimmed_truncsp_skipWhitespace s
  rw [trim, trim, this.skipWhitespace, this.truncsp]

theorem trim_eq_nil {s : Str} : trim s = [] ↔ skipWhitespace s = [] := by
  constructor
  · intro h
    have hall := List.rdropWhile_eq_nil_iff.mp h
    rcases hs : skipWhitespace s with _ | ⟨c, p⟩
    · rfl
    · have hc := head_dropWhile isspace s c (by rw [← skipWhitespace, hs]; rfl)
      rw [hall c (by rw [hs]; simp)] at hc
      cases hc
  · intro h
    rw [trim, h]
    rfl

/-- A single name matches a list of names without another. -/
theorem sectionMatch_eq {name sec : Str} (hname : iniSectionNameSep ∉ name)
    (hsec : iniSectionNameSep ∉ sec) (cs : Bool) :
    sectionMatch name sec cs =
      (name ≠ [] && sec ≠ [] &&
        if cs then trim name == trim sec else stricmp (trim name) (trim sec)) := by
  rw [sectionMatch, strListSplit_singleton hname, strListSplit_singleton hsec]
  by_cases h1 : name = []
  · simp [h1]
  · by_cases h2 : sec = []
    · simp [h1, h2]
    · simp [h1, h2, skipWhitespace_truncsp]

theorem not_mem_trim {c : UInt8} {s : Str} (h : c ∉ s) : c ∉ trim s := fun hc ↦
  h ((List.dropWhile_suffix _).subset ((List.rdropWhile_prefix _ _).subset hc))

theorem nameIn_sectionHeader {sec : Str} (hlen : sec.length + 2 < iniMaxValueLen) :
    nameIn (sectionHeader sec) = some (trim sec) := by
  have hheader : safecopy iniMaxValueLen (sectionHeader sec) =
      iniOpenSectionChar :: sec ++ [iniCloseSectionChar] := by
    have hmin : min (iniMaxValueLen - 1) (iniMaxLineLen - 1) = iniMaxValueLen - 1 := rfl
    rw [sectionHeader, safecopy, safecopy, List.take_take, hmin, List.take_of_length_le]
    simpa [Nat.add_assoc] using Nat.le_sub_one_of_lt hlen
  have hskip : skipWhitespace (sec ++ [iniCloseSectionChar]) =
      skipWhitespace sec ++ [iniCloseSectionChar] := by
    rw [skipWhitespace, List.dropWhile_append]
    split
    case isTrue hnil =>
      rw [skipWhitespace, List.isEmpty_iff.mp hnil]
      rfl
    case isFalse => rfl
  have hlast : strrchr (skipWhitespace sec ++ [iniCloseSectionChar]) iniCloseSectionChar =
      some (skipWhitespace sec).length := by
    simp [strrchr, List.idxOf?_cons]
  have hopen : skipWhitespace (iniOpenSectionChar :: sec ++ [iniCloseSectionChar]) =
      iniOpenSectionChar :: (sec ++ [iniCloseSectionChar]) := rfl
  rw [nameIn, hheader, afterIsEof, if_neg (by intro h; cases h), sectionName, hopen]
  simp only [ne_eq, not_true_eq_false, if_false, hskip, hlast, Option.map_some, List.take_left, trim]

/-- The end of a header that is too long is cut off. -/
theorem nameIn_sectionHeader_long {sec : Str} (hsec : iniCloseSectionChar ∉ sec)
    (hlen : iniMaxValueLen ≤ sec.length + 2) : nameIn (sectionHeader sec) = none := by
  have hheader : safecopy iniMaxValueLen (sectionHeader sec) =
      iniOpenSectionChar :: sec.take (iniMaxValueLen - 2) := by
    have hmin : min (iniMaxValueLen - 1) (iniMaxLineLen - 1) = iniMaxValueLen - 2 + 1 := rfl
    rw [sectionHeader, safecopy, safecopy, List.take_take, hmin, List.cons_append,
      List.take_succ_cons, List.take_append_of_le_length (by omega)]
  have hnone : strrchr (skipWhitespace (sec.take (iniMaxValueLen - 2))) iniCloseSectionChar =
      none := by
    have : iniCloseSectionChar ∉ skipWhitespace (sec.take (iniMaxValueLen - 2)) := fun hc ↦
      hsec (List.mem_of_mem_take ((List.dropWhile_suffix _).subset hc))
    simpa [strrchr] using this
  have hopen : skipWhitespace (iniOpenSectionChar :: sec.take (iniMaxValueLen - 2)) =
      iniOpenSectionChar :: sec.take (iniMaxValueLen - 2) := rfl
  rw [nameIn, hheader, afterIsEof, if_neg (by intro h; cases h), sectionName, hopen]
  simp only [ne_eq, not_true_eq_false, if_false, hnone, Option.map_none]

theorem eofLine_sectionHeader (sec : Str) : eofLine (sectionHeader sec) = false := by
  have hhead : (safecopy iniMaxValueLen (sectionHeader sec)).head? = some iniOpenSectionChar := by
    rw [safecopy, sectionHeader, safecopy, List.take_take]
    rfl
  rw [eofLine, isEof, hhead]
  rfl

/-- The header that is added is found if it is not blank and fits. -/
theorem heads_sectionHeader {sec : Str} (h : NoPunctuation sec) (cs : Bool) :
    heads sec cs (sectionHeader sec) = true ↔
      skipWhitespace sec ≠ [] ∧ sec.length + 2 < iniMaxValueLen := by
  have hclose : iniCloseSectionChar ∉ sec := fun hc ↦ h _ hc (by decide)
  have hsep : iniSectionNameSep ∉ sec := fun hc ↦ h _ hc (by decide)
  by_cases hlen : sec.length + 2 < iniMaxValueLen
  · rw [heads, nameIn_sectionHeader hlen, Option.any_some,
      sectionMatch_eq (not_mem_trim hsep) hsep]
    simp only [trim_trim, beq_self_eq_true, stricmp, ite_self, Bool.and_true, Bool.and_eq_true,
      decide_eq_true_eq, ne_eq, trim_eq_nil, hlen, and_true]
    constructor
    · exact fun h' ↦ h'.1
    · refine fun h' ↦ ⟨h', ?_⟩
      rintro rfl
      exact h' rfl
  · rw [heads, nameIn_sectionHeader_long hclose (by omega)]
    simp [hlen]

/-! ## Get after set -/

/-- When `iniGetString` reads back what `iniSetString` has set. -/
structure ReadsBack (list : List Str) (section_ : Option Str) (key value : Str) : Prop where
  /-- The section is found, or its header is added where a search finds it. -/
  found : ∀ sec, section_ = some sec → findSectionIndex list sec < list.length ∨
    (∀ s ∈ list, eofLine s = false) ∧ skipWhitespace sec ≠ [] ∧ sec.length + 2 < iniMaxValueLen
  trimmed : Trimmed key
  /-- No line in front of the key is a literal that ends with a backslash. -/
  readable : ∀ s ∈ searched key (sectionLines list section_),
    holds key s = false → readable true s = true
  /-- A line that is kept has the value also when it is read with literals. -/
  kept : ∀ s ∈ searched key (sectionLines list section_), Kept key value s →
    ∃ v, valueOf true (lineBuf s) = some v ∧ v.2.take (iniMaxValueLen - 1) = value
  /-- A new line that starts like `!eof` is not in the way of a name in another case. -/
  eof : eofLine (lineOf key value) = true →
    (∀ s ∈ searched key (sectionLines list section_), ¬ Kept key value s) →
    ∀ sec, section_ = some sec → findSectionIndex list sec < list.length →
      (findPass list.length sec true 0 list).isSome = true

theorem iniGetString_eq_stringAt (list : List Str) (section_ : Option Str) (key : Str)
    (deflt : Option Str) :
    iniGetString list section_ key deflt =
      stringAt blankText key deflt (sectionLines list section_) :=
  iniGetString_eq list section_ key deflt

/-- Without a line that holds the key there is no value. -/
theorem stringAt_ne {lines : List Str} (h : ∀ s, holds key s = false) :
    stringAt blankText key none lines ≠ some (some value) := by
  obtain ⟨pre, tail, rfl, hpass, rfl | ⟨s, post, rfl, hs | hs⟩⟩ := exists_passes_append key lines
  · rw [stringAt_append _ _ hpass]
    split <;> simp [stringAt]
  · rw [stringAt_append _ _ hpass, stringAt_stop _ hs]
    split <;> simp
  · rw [h s] at hs
    cases hs

theorem HeaderAt.setLine {sec : Str} {pre post lines' : List Str} {hdr : Str}
    (h : HeaderAt sec pre hdr post)
    (hlines : (∀ s ∈ lines', s ∈ post ∨ Neutral s) ∨
      (findPass (pre ++ hdr :: post).length sec true 0 (pre ++ hdr :: post)).isSome = true) :
    HeaderAt sec pre hdr lines' := by
  cases h with
  | exact hpre he hh => exact .exact hpre he hh
  | anyCase hall hpre hh =>
      rcases hlines with hlines | hsome
      · refine .anyCase (fun s hs ↦ ?_) hpre hh
        rcases List.mem_append.mp hs with hs | hs
        · exact hall s (by simp [hs])
        · rcases List.mem_cons.mp hs with rfl | hs
          · exact hall s (by simp)
          · rcases hlines s hs with hs | hs
            · exact hall s (by simp [hs])
            · exact ⟨hs.eof, hs.heads sec true⟩
      · rw [findPass_eq_none.mpr hall] at hsome
        cases hsome

/-- Where the section is in the list. -/
theorem Settable.get_set_found (h : Settable key value) (hkey : Trimmed key) {list : List Str}
    {section_ : Option Str} {lines' : List Str}
    (hset : SetLine key (lineOf key value) (textOf value) (writesLiteral (some value))
      (sectionLines list section_) lines')
    (hsec : ∀ sec, section_ = some sec → findSectionIndex list sec < list.length) :
    (∀ deflt, iniGetString (list.take (findSection list section_) ++ lines') section_ key deflt =
        some (some value)) ↔ ReadsBack list section_ key value := by
  have hread := h.stringAt_setLine hkey hset
  have hback : (∀ sec, section_ = some sec → eofLine (lineOf key value) = true →
      (∀ s ∈ searched key (sectionLines list section_), ¬ Kept key value s) →
      (findPass list.length sec true 0 list).isSome = true) →
      ((∀ deflt, stringAt blankText key deflt lines' = some (some value)) ↔
        ReadsBack list section_ key value) := by
    intro heof
    rw [hread]
    constructor
    · exact fun hr ↦ ⟨fun sec hs ↦ .inl (hsec sec hs), hkey, hr.1, hr.2,
        fun h1 h2 sec hs _ ↦ heof sec hs h1 h2⟩
    · exact fun hr ↦ ⟨hr.readable, hr.kept⟩
  cases section_ with
  | none =>
      simp only [iniGetString_eq_stringAt]
      exact hback (by simp)
  | some sec =>
      rcases header_or_noHeader list sec with ⟨pre, hdr, post, rfl, hdrAt⟩ | hno
      case inr =>
        have := hsec sec rfl
        rw [hno.findSectionIndex] at this
        exact absurd this (lt_irrefl _)
      have hfront : (pre ++ hdr :: post).take (findSection (pre ++ hdr :: post) (some sec)) ++
          lines' = pre ++ hdr :: lines' := by
        rw [hdrAt.findSection, List.append_cons, List.take_left' (by simp), ← List.append_cons]
      have hfound : HeaderAt sec pre hdr lines' →
          ((∀ deflt, iniGetString (pre ++ hdr :: lines') (some sec) key deflt =
            some (some value)) ↔
          ∀ deflt, stringAt blankText key deflt lines' = some (some value)) := by
        intro h'
        simp only [iniGetString_eq_stringAt, h'.sectionLines]
      rw [hfront]
      rw [hdrAt.sectionLines] at hset
      rcases h.kept_or_written hset with
        ⟨rfl, s, hs, hkept⟩ | ⟨⟨before, behind, hlines, hmem⟩, hnot⟩
      · rw [hfound hdrAt]
        refine hback fun sec' _ _ hn ↦ ?_
        rw [hdrAt.sectionLines] at hn
        exact absurd hkept (hn s hs)
      · by_cases hgood : eofLine (lineOf key value) = true ∧
          findPass (pre ++ hdr :: post).length sec true 0 (pre ++ hdr :: post) = none
        · -- the new line hides the header
          obtain ⟨heof, hnone⟩ := hgood
          have hall := findPass_eq_none.mp hnone
          have hhidden : NoHeader sec (pre ++ hdr :: lines') := by
            have : NoHeader sec (pre ++ hdr :: before ++ lineOf key value :: behind) := .eof behind
              (fun t ht ↦ hall t (by
                rcases List.mem_append.mp ht with ht | ht
                · simp [ht]
                · rcases List.mem_cons.mp ht with rfl | ht
                  · simp
                  · simp [hmem t (by simp [ht])])) heof
            simpa [hlines] using this
          constructor
          · intro hget
            have := hget none
            rw [iniGetString_eq_stringAt, hhidden.sectionLines] at this
            cases this
          · intro hr
            have := hr.eof heof (by rwa [hdrAt.sectionLines]) sec rfl (hsec sec rfl)
            rw [hnone] at this
            cases this
        · have hsome : eofLine (lineOf key value) = true →
              (findPass (pre ++ hdr :: post).length sec true 0 (pre ++ hdr :: post)).isSome =
                true := by
            intro heof
            rw [Option.isSome_iff_ne_none]
            exact fun hn ↦ hgood ⟨heof, hn⟩
          rw [hfound (hdrAt.setLine ?_)]
          · refine hback fun sec' hs heof _ ↦ ?_
            cases hs
            exact hsome heof
          · cases heof : eofLine (lineOf key value) with
            | true => exact .inr (hsome heof)
            | false =>
                refine .inl fun t ht ↦ ?_
                rw [hlines] at ht
                rcases List.mem_append.mp ht with ht | ht
                · exact .inl (hmem t (by simp [ht]))
                · rcases List.mem_cons.mp ht with rfl | ht
                  · exact .inr ⟨heof, h.nameIn_lineOf hkey⟩
                  · exact .inl (hmem t (by simp [ht]))

theorem NoHeader.append {sec : Str} {list : List Str} (h : NoHeader sec list) {list' : List Str}
    (hlist : (∀ s ∈ list, eofLine s = false) → ∀ s ∈ list', eofLine s = true ∨
      eofLine s = false ∧ heads sec true s = false ∧ heads sec false s = false) :
    NoHeader sec (list ++ list') := by
  cases h with
  | @eof pre s post hpre he =>
      have : NoHeader sec (pre ++ s :: (post ++ list')) := .eof (post ++ list') hpre he
      simpa using this
  | none hall =>
      have hlist' := hlist fun s hs ↦ (hall s hs).1
      obtain ⟨pre, rest, rfl, hpre, rfl | ⟨s, post, rfl, hs⟩⟩ := exists_first eofLine list'
      · refine .none fun s hs ↦ ?_
        rcases List.mem_append.mp hs with hs | hs
        · exact hall s hs
        · rcases hlist' s hs with h' | h'
          · rw [hpre s (by simpa using hs)] at h'
            cases h'
          · exact h'
      · rw [← List.append_assoc]
        refine .eof post (fun t ht ↦ ?_) hs
        rcases List.mem_append.mp ht with ht | ht
        · exact ⟨(hall t ht).1, (hall t ht).2.1⟩
        · rcases hlist' t (by simp [ht]) with h' | h'
          · rw [hpre t ht] at h'
            cases h'
          · exact ⟨h'.1, h'.2.1⟩

/-- Where the header is added. -/
theorem Settable.get_set_added (h : Settable key value) (hkey : Trimmed key) {list : List Str}
    {sec : Str} (hname : NoPunctuation sec) (hno : NoHeader sec list) {lines' : List Str}
    (hset : SetLine key (lineOf key value) (textOf value) (writesLiteral (some value))
      (sectionLines (list ++ [sectionHeader sec]) (some sec)) lines') :
    (∀ deflt, iniGetString ((list ++ [sectionHeader sec]).take
        (findSection (list ++ [sectionHeader sec]) (some sec)) ++ lines') (some sec) key deflt =
        some (some value)) ↔ ReadsBack list (some sec) key value := by
  have hline : sectionLines (list ++ [sectionHeader sec]) (some sec) = [] →
      lines' = [lineOf key value] := by
    intro hnil
    rw [hnil] at hset
    rcases h.kept_or_written hset with ⟨-, s, hs, -⟩ | ⟨⟨before, behind, rfl, hmem⟩, -⟩
    · cases hs
    · have : before ++ behind = [] := List.eq_nil_iff_forall_not_mem.mpr fun s hs ↦ by
        simpa using hmem s hs
      obtain ⟨rfl, rfl⟩ := List.append_eq_nil_iff.mp this
      rfl
  by_cases hgood : (∀ s ∈ list, eofLine s = false) ∧ skipWhitespace sec ≠ [] ∧
      sec.length + 2 < iniMaxValueLen
  · have hclean : ∀ s ∈ list, eofLine s = false ∧ heads sec true s = false := by
      cases hno with
      | @eof pre s post _ he =>
          rw [hgood.1 s (by simp)] at he
          cases he
      | none hall => exact fun s hs ↦ ⟨(hall s hs).1, (hall s hs).2.1⟩
    have hdrAt : ∀ post, HeaderAt sec list (sectionHeader sec) post := fun post ↦
      .exact hclean (eofLine_sectionHeader sec) ((heads_sectionHeader hname true).mpr hgood.2)
    have hfront : (list ++ [sectionHeader sec]).take
        (findSection (list ++ [sectionHeader sec]) (some sec)) ++ lines' =
        list ++ sectionHeader sec :: [lineOf key value] := by
      rw [hline (hdrAt []).sectionLines, (hdrAt []).findSection, List.take_of_length_le (by simp)]
      simp
    have hnil : sectionLines list (some sec) = [] := hno.sectionLines
    simp only [hfront, iniGetString_eq_stringAt, (hdrAt _).sectionLines,
      h.stringAt_lineOf hkey, implies_true, true_iff]
    refine ⟨fun sec' hs ↦ by cases hs; exact .inr hgood, hkey, ?_, ?_, ?_⟩
    · rw [hnil]
      exact fun s hs ↦ nomatch hs
    · rw [hnil]
      exact fun s hs ↦ nomatch hs
    · intro _ _ sec' hs hlt
      cases hs
      rw [hno.findSectionIndex] at hlt
      exact absurd hlt (lt_irrefl _)
  · have hadded : ∀ cs, (∀ s ∈ list, eofLine s = false) →
        heads sec cs (sectionHeader sec) = false := fun cs heof ↦ by
      by_contra hh
      exact hgood ⟨heof, (heads_sectionHeader hname cs).mp (by simpa using hh)⟩
    have hno' : NoHeader sec (list ++ [sectionHeader sec]) := hno.append fun heof s hs ↦ by
      rw [List.mem_singleton.mp hs]
      exact .inr ⟨eofLine_sectionHeader sec, hadded true heof, hadded false heof⟩
    have hno2 : NoHeader sec (list ++ [sectionHeader sec] ++ [lineOf key value]) :=
      hno'.append fun _ s hs ↦ by
        rw [List.mem_singleton.mp hs]
        cases heof : eofLine (lineOf key value) with
        | true => exact .inl rfl
        | false =>
            have hneutral : Neutral (lineOf key value) := ⟨heof, h.nameIn_lineOf hkey⟩
            exact .inr ⟨rfl, hneutral.heads sec true, hneutral.heads sec false⟩
    have hfront : (list ++ [sectionHeader sec]).take
        (findSection (list ++ [sectionHeader sec]) (some sec)) ++ lines' =
        list ++ [sectionHeader sec] ++ [lineOf key value] := by
      rw [hline hno'.sectionLines, hno'.findSection, List.take_length]
    rw [hfront]
    constructor
    · intro hget
      have := hget none
      rw [iniGetString_eq_stringAt, hno2.sectionLines] at this
      cases this
    · intro hr
      rcases hr.found sec rfl with hlt | hbad
      · rw [hno.findSectionIndex] at hlt
        exact absurd hlt (lt_irrefl _)
      · exact absurd hbad hgood

/-- Get after set: the value is read back, whatever the default is, exactly under `ReadsBack`. -/
theorem iniGetString_iniSetString {list list' : List Str} {section_ : Option Str}
    (h : Settable key value) (hname : ∀ sec, section_ = some sec → NoPunctuation sec)
    (hset : iniSetString list section_ key (some value) {} = some list') :
    (∀ deflt, iniGetString list' section_ key deflt = some (some value)) ↔
      ReadsBack list section_ key value := by
  rw [h.iniSetString_eq] at hset
  obtain ⟨lines', hlines, rfl⟩ := setLine_eq_some hset (getLast_iniAddSection list section_)
  by_cases hkey : Trimmed key
  case neg =>
    constructor
    · intro hget
      refine absurd (hget none) ?_
      rw [iniGetString_eq_stringAt]
      exact stringAt_ne fun s ↦ by
        by_contra hs
        exact hkey (trimmed_of_holds (by simpa using hs))
    · exact fun hr ↦ absurd hr.trimmed hkey
  cases section_ with
  | none => exact h.get_set_found hkey hlines (by simp)
  | some sec =>
      rcases header_or_noHeader list sec with ⟨pre, hdr, post, rfl, hdrAt⟩ | hno
      · rw [iniAddSection_header hdrAt] at hlines ⊢
        refine h.get_set_found hkey hlines fun sec' hs ↦ ?_
        cases hs
        rw [hdrAt.findSectionIndex]
        simp
      · rw [iniAddSection_noHeader hno] at hlines ⊢
        exact h.get_set_added hkey (hname sec rfl) hno hlines

/-- A tab that is set in `[s]`, in front of `[t]`. -/
theorem iniGetString_iniSetString_tab :
    iniGetString [[0x5b, 0x73, 0x5d], [0x4b, 0x3a, 0x22, 0x5c, 0x74, 0x22],
      [0x5b, 0x74, 0x5d], [0x6b, 0x3d, 0x31]] (some [0x53]) [0x4b] none = some (some [9]) := by
  refine (@iniGetString_iniSetString [0x4b] [9]
    [[0x5b, 0x73, 0x5d], [0x5b, 0x74, 0x5d], [0x6b, 0x3d, 0x31]] _ (some [0x53])
    ⟨by decide +kernel, by decide +kernel, by decide +kernel, by decide +kernel,
      by decide +kernel⟩ ?_ (by decide +kernel)).mpr ?_ none
  · intro sec hs
    cases hs
    decide +kernel
  · have hnone : searched [0x4b] (sectionLines [[0x5b, 0x73, 0x5d], [0x5b, 0x74, 0x5d],
        [0x6b, 0x3d, 0x31]] (some [0x53])) = [] := by decide +kernel
    refine ⟨?_, ?_, ?_, ?_, ?_⟩
    · intro sec hs
      cases hs
      exact .inl (by decide +kernel)
    · constructor <;> decide +kernel
    · rw [hnone]
      exact fun s hs ↦ nomatch hs
    · rw [hnone]
      exact fun s hs ↦ nomatch hs
    · intro h
      exact absurd h (by decide +kernel)

/-- `k=" a"` is kept when ` a` is set, and it is read back with its quotes. -/
theorem iniGetString_iniSetString_quotes :
    Settable [0x6b] [0x20, 0x61] ∧
      iniSetString [[0x6b, 0x3d, 0x22, 0x20, 0x61, 0x22]] none [0x6b] (some [0x20, 0x61]) {} =
        some [[0x6b, 0x3d, 0x22, 0x20, 0x61, 0x22]] ∧
      iniGetString [[0x6b, 0x3d, 0x22, 0x20, 0x61, 0x22]] none [0x6b] none =
        some (some [0x22, 0x20, 0x61, 0x22]) :=
  ⟨⟨by decide +kernel, by decide +kernel, by decide +kernel, by decide +kernel,
    by decide +kernel⟩, by decide +kernel, by decide +kernel⟩

end Synchronet.Xpdev
