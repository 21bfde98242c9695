import Synchronet.Xpdev.IniLines
import Mathlib.Data.List.Induction

/-!
# Edits of an ini list

`iniSetString`, `iniRemoveKey` and `iniRemoveSection`, and how the search for a section sees
lines that are put into the list or taken out of it.
-/

namespace Synchronet.Xpdev

open Trim
open Smblib (isspace)

/-! ## Setting a string -/

/-- `ini_style_t`, as far as a string is written with it.  The default has no strings. -/
structure IniStyle where
  keyLen : ℕ := 0
  keyPrefix : Option Str := none
  sectionSeparator : Option Str := none
  valueSeparator : Option Str := none
  literalSeparator : Option Str := none

def sectionHeader (sec : Str) : Str :=
  safecopy iniMaxLineLen (iniOpenSectionChar :: sec ++ [iniCloseSectionChar])

/-- `ini_add_section` at an index that `find_section_index` returned. -/
def iniAddSection (list : List Str) (section_ : Option Str) (style : IniStyle) : List Str :=
  match section_ with
  | none => list
  | some sec =>
      if findSectionIndex list sec < list.length then list
      else
        let separator := if 0 < list.length then style.sectionSeparator.toList else []
        list ++ separator ++ [sectionHeader sec]

def strContainsCtrlChar (str : Str) : Bool := str.any (· < 0x20)

/-- The index in front of the empty lines that end at `i`. -/
def beforeBlank (list : List Str) : ℕ → ℕ
  | 0 => 0
  | i + 1 => if list[i]? = some [] then beforeBlank list i else i + 1

/-- The separator and the text that stand for a value. -/
def valueText (value : Str) (literal : Bool) (style : IniStyle) : Option (Str × Str) :=
  if literal then
    (cEscapeStr false (iniMaxValueLen - 1) value).map fun cstr ↦
      (style.literalSeparator.getD [0x3a], safecopy iniMaxValueLen (0x22 :: cstr ++ [0x22]))
  else some (style.valueSeparator.getD [0x3d], value)

def keyLine (key : Str) (text : Str × Str) (style : IniStyle) : Str :=
  safecopy iniMaxLineLen
    (style.keyPrefix.getD [] ++ key.rightpad style.keyLen 0x20 ++ text.1 ++ text.2)

/-- `ini_set_string` in the list that has the section. -/
def setLine (list : List Str) (section_ : Option Str) (key line text : Str) (literal : Bool) :
    Option (List Str) :=
  (getValue list section_ key literal).map fun r ↦
    match list[r.i]? with
    | none =>
        let i := beforeBlank list r.i
        list.take i ++ line :: list.drop i
    | some s =>
        if s.head? = some iniOpenSectionChar then
          let i := beforeBlank list r.i
          list.take i ++ line :: list.drop i
        else if r.value = text then list
        else list.set r.i line

def iniSetStringWith (list : List Str) (section_ : Option Str) (key : Str) (value : Option Str)
    (literal : Bool) (style : IniStyle) : Option (List Str) := do
  let text ← valueText (value.getD []) literal style
  setLine (iniAddSection list section_ style) section_ key (keyLine key text style) text.2 literal

/-- Whether `iniSetString` writes a literal. -/
def writesLiteral (value : Option Str) : Bool :=
  value.any fun value ↦
    strContainsCtrlChar value || value.head? == some 0x20 || value.getLast? == some 0x20

def iniSetString (list : List Str) (section_ : Option Str) (key : Str) (value : Option Str)
    (style : IniStyle) : Option (List Str) :=
  iniSetStringWith list section_ key value (writesLiteral value) style

/-! ## Removing a key or a section -/

/-- `iniRemoveKey`: the list, or `none` in it for `FALSE`. -/
def iniRemoveKey (list : List Str) (section_ : Option Str) (key : Str) :
    Option (Option (List Str)) :=
  (getValue list section_ key false).map fun r ↦
    r.vp.map fun _ ↦ list.eraseIdx r.i

/-- `section_match` with a null pointer reads a null list, as soon as there is a header. -/
def findRootIndex : List Str → Option ℕ
  | [] => some 0
  | s :: list =>
      let str := safecopy iniMaxValueLen s
      if isEof str then some (list.length + 1)
      else if (sectionName (afterIsEof str)).isSome then none
      else (findRootIndex list).map (· + 1)

def iniRemoveSection (list : List Str) (section_ : Option Str) : Option (Option (List Str)) :=
  (section_.elim (findRootIndex list) fun sec ↦ some (findSectionIndex list sec)).map fun i ↦
    if i < list.length then
      some (list.take i ++ (list.drop (i + 1)).dropWhile fun s ↦ s.head? ≠ some iniOpenSectionChar)
    else none

/-! ## The lines that a search for a section sees -/

/-- `find_section_index` gives up at the line. -/
def eofLine (s : Str) : Bool := isEof (safecopy iniMaxValueLen s)

/-- The name that `find_section_index` reads from the line. -/
def nameIn (s : Str) : Option Str := sectionName (afterIsEof (safecopy iniMaxValueLen s))

/-- The line is the header of a section with the name. -/
def heads (sec : Str) (cs : Bool) (s : Str) : Bool := (nameIn s).any (sectionMatch · sec cs)

/-- A line that no search for a section stops at. -/
structure Neutral (s : Str) : Prop where
  eof : eofLine s = false
  name : nameIn s = none

theorem Neutral.heads {s : Str} (h : Neutral s) (sec : Str) (cs : Bool) :
    heads sec cs s = false := by
  simp [Xpdev.heads, h.name]

theorem findPass_cons (count : ℕ) (sec : Str) (cs : Bool) (i : ℕ) (s : Str) (list : List Str) :
    findPass count sec cs i (s :: list) =
      if eofLine s then some count
      else if heads sec cs s then some i
      else findPass count sec cs (i + 1) list := rfl

/-- Lines in front of a list that do not stop the search only move the result. -/
theorem findPass_append (count : ℕ) (sec : Str) (cs : Bool) (i : ℕ) (pre list : List Str)
    (h : ∀ s ∈ pre, eofLine s = false ∧ heads sec cs s = false) :
    findPass count sec cs i (pre ++ list) = findPass count sec cs (i + pre.length) list := by
  induction pre generalizing i with
  | nil => rfl
  | cons s pre ih =>
      obtain ⟨he, hh⟩ := h s (by simp)
      rw [List.cons_append, findPass_cons, if_neg (by simp [he]), if_neg (by simp [hh]),
        ih (i + 1) fun t ht ↦ h t (by simp [ht]), List.length_cons, Nat.add_right_comm,
        Nat.add_assoc]

theorem le_findPass {count : ℕ} {sec : Str} {cs : Bool} {i j : ℕ} {list : List Str}
    (h : findPass count sec cs i list = some j) (hcount : i + list.length ≤ count) : i ≤ j := by
  induction list generalizing i with
  | nil => cases h
  | cons s list ih =>
      rw [findPass_cons] at h
      rw [List.length_cons] at hcount
      split at h
      · cases h
        omega
      · split at h
        · cases h
          rfl
        · have := ih h (by omega)
          omega

theorem findPass_add (count m : ℕ) (sec : Str) (cs : Bool) (i : ℕ) (list : List Str) :
    findPass (count + m) sec cs (i + m) list = (findPass count sec cs i list).map (· + m) := by
  induction list generalizing i with
  | nil => rfl
  | cons s list ih =>
      rw [findPass_cons, findPass_cons]
      split
      · rfl
      · split
        · rfl
        · rw [Nat.add_right_comm, ih]

/-- Neutral lines in a list move what is found behind them. -/
theorem findPass_insert (count : ℕ) (sec : Str) (cs : Bool) (i : ℕ) (pre mid post : List Str)
    (hmid : ∀ s ∈ mid, Neutral s) (hcount : i + (pre.length + post.length) ≤ count) :
    (∃ j < i + pre.length, findPass (count + mid.length) sec cs i (pre ++ mid ++ post) = some j ∧
      findPass count sec cs i (pre ++ post) = some j) ∨
    (∃ j, i + pre.length ≤ j ∧
      findPass (count + mid.length) sec cs i (pre ++ mid ++ post) = some (j + mid.length) ∧
      findPass count sec cs i (pre ++ post) = some j) ∨
    (findPass (count + mid.length) sec cs i (pre ++ mid ++ post) = none ∧
      findPass count sec cs i (pre ++ post) = none) := by
  induction pre generalizing i with
  | nil =>
      have h := findPass_append (count + mid.length) sec cs i mid post fun s hs ↦
        ⟨(hmid s hs).eof, (hmid s hs).heads sec cs⟩
      rw [findPass_add] at h
      rw [List.nil_append, List.nil_append, h]
      rcases hp : findPass count sec cs i post with _ | j
      · exact .inr (.inr ⟨rfl, rfl⟩)
      · rw [List.length_nil, Nat.zero_add] at hcount
        exact .inr (.inl ⟨j, le_findPass hp hcount, rfl, rfl⟩)
  | cons s pre ih =>
      simp only [List.cons_append, findPass_cons, List.length_cons] at hcount ⊢
      by_cases he : eofLine s = true
      · simp only [he, if_true]
        exact .inr (.inl ⟨count, by omega, rfl, rfl⟩)
      · by_cases hh : heads sec cs s = true
        · simp only [he, hh, if_true]
          exact .inl ⟨i, by omega, rfl, rfl⟩
        · simp only [he, hh]
          rcases ih (i + 1) (by omega) with ⟨j, hj, h1, h2⟩ | ⟨j, hj, h1, h2⟩ | ⟨h1, h2⟩
          · exact .inl ⟨j, by omega, h1, h2⟩
          · exact .inr (.inl ⟨j, by omega, h1, h2⟩)
          · exact .inr (.inr ⟨h1, h2⟩)

/-- The index of a section stays, or moves with the lines that are put in front of it. -/
theorem findSectionIndex_insert (sec : Str) (pre mid post : List Str)
    (hmid : ∀ s ∈ mid, Neutral s) :
    (findSectionIndex (pre ++ mid ++ post) sec = findSectionIndex (pre ++ post) sec ∧
      findSectionIndex (pre ++ post) sec < pre.length) ∨
    (findSectionIndex (pre ++ mid ++ post) sec =
        findSectionIndex (pre ++ post) sec + mid.length ∧
      pre.length ≤ findSectionIndex (pre ++ post) sec) := by
  have hlen : (pre ++ mid ++ post).length = (pre ++ post).length + mid.length := by
    simp only [List.length_append]
    omega
  have hins : ∀ cs, _ := fun cs ↦ findPass_insert (pre ++ post).length sec cs 0 pre mid post hmid
    (by simp)
  simp only [findSectionIndex, hlen]
  simp only [Nat.zero_add] at hins
  rcases hins true with ⟨j, hj, h1, h2⟩ | ⟨j, hj, h1, h2⟩ | ⟨h1, h2⟩
  · simp only [h1, h2, Option.some_or, Option.getD_some]
    exact .inl ⟨trivial, hj⟩
  · simp only [h1, h2, Option.some_or, Option.getD_some]
    exact .inr ⟨trivial, hj⟩
  · rcases hins false with ⟨j, hj, h3, h4⟩ | ⟨j, hj, h3, h4⟩ | ⟨h3, h4⟩
    · simp only [h1, h2, h3, h4, Option.none_or, Option.getD_some]
      exact .inl ⟨trivial, hj⟩
    · simp only [h1, h2, h3, h4, Option.none_or, Option.getD_some]
      exact .inr ⟨trivial, hj⟩
    · simp only [h1, h2, h3, h4, Option.none_or, Option.getD_none]
      exact .inr ⟨trivial, by simp⟩

/-- The lines of a section, as far as the list goes. -/
def sectionLines (list : List Str) (section_ : Option Str) : List Str :=
  list.drop (findSection list section_)

/-- Where the lines of a section start that is in the list. -/
def sectionStart (list : List Str) (section_ : Option Str) : ℕ :=
  section_.elim 0 fun sec ↦ findSectionIndex list sec + 1

/-- Neutral lines are seen in the section that they are put into, and nowhere else. -/
theorem sectionLines_insert (section_ : Option Str) (pre mid post : List Str)
    (hmid : ∀ s ∈ mid, Neutral s) :
    (∃ k ≤ pre.length, sectionStart (pre ++ post) section_ = k ∧
      sectionStart (pre ++ mid ++ post) section_ = k ∧
      sectionLines (pre ++ post) section_ = pre.drop k ++ post ∧
      sectionLines (pre ++ mid ++ post) section_ = pre.drop k ++ mid ++ post) ∨
    (pre.length < sectionStart (pre ++ post) section_ ∧
      sectionLines (pre ++ mid ++ post) section_ = sectionLines (pre ++ post) section_) := by
  cases section_ with
  | none => exact .inl ⟨0, by simp, rfl, rfl, rfl, rfl⟩
  | some sec =>
      have hlen : (pre ++ mid ++ post).length = (pre ++ post).length + mid.length := by
        simp only [List.length_append]
        omega
      rcases findSectionIndex_insert sec pre mid post hmid with ⟨heq, hlt⟩ | ⟨heq, hle⟩
      · refine .inl ⟨findSectionIndex (pre ++ post) sec + 1, hlt, rfl, congrArg (· + 1) heq, ?_, ?_⟩ <;>
          simp only [sectionLines, findSection, heq]
        · rw [if_pos (by rw [List.length_append]; omega), List.drop_append_of_le_length hlt]
        · rw [if_pos (by rw [hlen, List.length_append]; omega), List.append_assoc,
            List.drop_append_of_le_length hlt, List.append_assoc]
      · have hfind : findSection (pre ++ mid ++ post) (some sec) =
            findSection (pre ++ post) (some sec) + mid.length := by
          simp only [findSection, heq, hlen, Nat.add_lt_add_iff_right]
          split <;> omega
        have hge : pre.length ≤ findSection (pre ++ post) (some sec) := by
          simp only [findSection]
          split <;> omega
        refine .inr ⟨Nat.lt_succ_of_le hle, ?_⟩
        obtain ⟨d, hd⟩ := Nat.exists_eq_add_of_le hge
        rw [sectionLines, sectionLines, hfind, hd, List.append_assoc, Nat.add_assoc,
          List.drop_length_add_append, Nat.add_comm d, List.drop_length_add_append,
          List.drop_length_add_append]

/-- A pass ends at `!eof` or at a header. -/
theorem findPass_eq_some {count : ℕ} {sec : Str} {cs : Bool} {i j : ℕ} {list : List Str}
    (h : findPass count sec cs i list = some j) :
    ∃ pre s post, list = pre ++ s :: post ∧
      (∀ t ∈ pre, eofLine t = false ∧ heads sec cs t = false) ∧
      (eofLine s = true ∧ j = count ∨
        eofLine s = false ∧ heads sec cs s = true ∧ j = i + pre.length) := by
  induction list generalizing i with
  | nil => cases h
  | cons s list ih =>
      rw [findPass_cons] at h
      cases he : eofLine s with
      | true =>
          rw [if_pos he] at h
          cases h
          exact ⟨[], s, list, rfl, by simp, .inl ⟨he, rfl⟩⟩
      | false =>
          rw [if_neg (by simp [he])] at h
          cases hh : heads sec cs s with
          | true =>
              rw [if_pos hh] at h
              cases h
              exact ⟨[], s, list, rfl, by simp, .inr ⟨he, hh, rfl⟩⟩
          | false =>
              rw [if_neg (by simp [hh])] at h
              obtain ⟨pre, t, post, rfl, hpre, hj⟩ := ih h
              refine ⟨s :: pre, t, post, rfl, by simpa [he, hh] using hpre, hj.imp id ?_⟩
              rintro ⟨he', hh', rfl⟩
              exact ⟨he', hh', by rw [List.length_cons]; omega⟩

theorem findPass_eq_none {count : ℕ} {sec : Str} {cs : Bool} {i : ℕ} {list : List Str} :
    findPass count sec cs i list = none ↔
      ∀ s ∈ list, eofLine s = false ∧ heads sec cs s = false := by
  induction list generalizing i with
  | nil => simp [findPass]
  | cons s list ih =>
      rw [findPass_cons]
      cases he : eofLine s <;> cases hh : heads sec cs s <;> simp [he, hh, ih]

theorem findPass_header (count : ℕ) {sec : Str} {cs : Bool} (i : ℕ) {pre : List Str} {hdr : Str}
    (post : List Str) (hpre : ∀ s ∈ pre, eofLine s = false ∧ heads sec cs s = false)
    (he : eofLine hdr = false) (hh : heads sec cs hdr = true) :
    findPass count sec cs i (pre ++ hdr :: post) = some (i + pre.length) := by
  rw [findPass_append count sec cs i pre _ hpre, findPass_cons, if_neg (by simp [he]), if_pos hh]

/-- The header of a section: the first exact one, or in a list without `!eof` and without an
exact one the first that matches in any case. -/
inductive HeaderAt (sec : Str) : List Str → Str → List Str → Prop
  | exact {pre : List Str} {hdr : Str} {post : List Str}
      (hpre : ∀ s ∈ pre, eofLine s = false ∧ heads sec true s = false)
      (he : eofLine hdr = false) (hh : heads sec true hdr = true) : HeaderAt sec pre hdr post
  | anyCase {pre : List Str} {hdr : Str} {post : List Str}
      (hall : ∀ s ∈ pre ++ hdr :: post, eofLine s = false ∧ heads sec true s = false)
      (hpre : ∀ s ∈ pre, heads sec false s = false)
      (hh : heads sec false hdr = true) : HeaderAt sec pre hdr post

theorem HeaderAt.findSectionIndex {sec : Str} {pre post : List Str} {hdr : Str}
    (h : HeaderAt sec pre hdr post) : findSectionIndex (pre ++ hdr :: post) sec = pre.length := by
  cases h with
  | exact hpre he hh =>
      rw [Xpdev.findSectionIndex, findPass_header _ 0 post hpre he hh]
      simp
  | anyCase hall hpre hh =>
      have hex : findPass (pre ++ hdr :: post).length sec true 0 (pre ++ hdr :: post) = none :=
        findPass_eq_none.mpr hall
      rw [Xpdev.findSectionIndex, hex, findPass_header _ 0 post
        (fun s hs ↦ ⟨(hall s (by simp [hs])).1, hpre s hs⟩) (hall hdr (by simp)).1 hh]
      simp

theorem findPass_eof (count : ℕ) {sec : Str} {cs : Bool} (i : ℕ) {pre : List Str} {s : Str}
    (post : List Str) (hpre : ∀ t ∈ pre, eofLine t = false ∧ heads sec cs t = false)
    (he : eofLine s = true) : findPass count sec cs i (pre ++ s :: post) = some count := by
  rw [findPass_append count sec cs i pre _ hpre, findPass_cons, if_pos he]

/-- No header: the search ends at `!eof`, or there is none in any case. -/
inductive NoHeader (sec : Str) : List Str → Prop
  | eof {pre : List Str} {s : Str} (post : List Str)
      (hpre : ∀ t ∈ pre, eofLine t = false ∧ heads sec true t = false)
      (he : eofLine s = true) : NoHeader sec (pre ++ s :: post)
  | none {list : List Str}
      (hall : ∀ t ∈ list, eofLine t = false ∧ heads sec true t = false ∧ heads sec false t = false) :
      NoHeader sec list

theorem NoHeader.findSectionIndex {sec : Str} {list : List Str} (h : NoHeader sec list) :
    findSectionIndex list sec = list.length := by
  cases h with
  | eof post hpre he =>
      rw [Xpdev.findSectionIndex, findPass_eof _ 0 post hpre he]
      rfl
  | none hall =>
      have hex : findPass list.length sec true 0 list = .none := findPass_eq_none.mpr fun t ht ↦
        ⟨(hall t ht).1, (hall t ht).2.1⟩
      have hci : findPass list.length sec false 0 list = .none := findPass_eq_none.mpr fun t ht ↦
        ⟨(hall t ht).1, (hall t ht).2.2⟩
      rw [Xpdev.findSectionIndex, hex, hci]
      rfl

/-- A list has a header for the section, or it has none. -/
theorem header_or_noHeader (list : List Str) (sec : Str) :
    (∃ pre hdr post, list = pre ++ hdr :: post ∧ HeaderAt sec pre hdr post) ∨
      NoHeader sec list := by
  rcases hex : findPass list.length sec true 0 list with _ | i
  · have hall := findPass_eq_none.mp hex
    rcases hci : findPass list.length sec false 0 list with _ | i
    · have hall' := findPass_eq_none.mp hci
      exact .inr (.none fun s hs ↦ ⟨(hall s hs).1, (hall s hs).2, (hall' s hs).2⟩)
    · obtain ⟨pre, s, post, rfl, hpre, ⟨he, -⟩ | ⟨-, hh, -⟩⟩ := findPass_eq_some hci
      · rw [(hall s (by simp)).1] at he
        cases he
      · exact .inl ⟨pre, s, post, rfl, .anyCase hall (fun t ht ↦ (hpre t ht).2) hh⟩
  · obtain ⟨pre, s, post, rfl, hpre, ⟨he, -⟩ | ⟨he, hh, -⟩⟩ := findPass_eq_some hex
    · exact .inr (.eof post hpre he)
    · exact .inl ⟨pre, s, post, rfl, .exact hpre he hh⟩

/-! ## What is set in the lines of a section -/

theorem findSection_le (list : List Str) (section_ : Option Str) :
    findSection list section_ ≤ list.length := by
  cases section_ with
  | none => exact Nat.zero_le _
  | some sec =>
      rcases header_or_noHeader list sec with ⟨pre, hdr, post, rfl, h⟩ | h
      · simp only [findSection, h.findSectionIndex, List.length_append, List.length_cons]
        split <;> omega
      · simp [findSection, h.findSectionIndex]

theorem take_append_sectionLines (list : List Str) (section_ : Option Str) :
    list.take (findSection list section_) ++ sectionLines list section_ = list :=
  List.take_append_drop _ _

theorem HeaderAt.findSection {sec : Str} {pre post : List Str} {hdr : Str}
    (h : HeaderAt sec pre hdr post) :
    findSection (pre ++ hdr :: post) (some sec) = pre.length + 1 := by
  simp [Xpdev.findSection, h.findSectionIndex]

theorem HeaderAt.sectionLines {sec : Str} {pre post : List Str} {hdr : Str}
    (h : HeaderAt sec pre hdr post) : sectionLines (pre ++ hdr :: post) (some sec) = post := by
  rw [Xpdev.sectionLines, h.findSection, List.append_cons]
  exact List.drop_left' (by simp)

theorem NoHeader.findSection {sec : Str} {list : List Str} (h : NoHeader sec list) :
    findSection list (some sec) = list.length := by
  simp [Xpdev.findSection, h.findSectionIndex]

theorem NoHeader.sectionLines {sec : Str} {list : List Str} (h : NoHeader sec list) :
    sectionLines list (some sec) = [] := by
  rw [Xpdev.sectionLines, h.findSection, List.drop_length]

/-- The empty lines in front of an index, down to a line that is not empty. -/
theorem beforeBlank_append (front pre tail : List Str) (hfront : front.getLast? ≠ some []) :
    ∃ kept blank, pre = kept ++ blank ∧ (∀ s ∈ blank, s = []) ∧
      beforeBlank (front ++ pre ++ tail) (front ++ pre).length = (front ++ kept).length := by
  induction pre using List.reverseRecOn generalizing tail with
  | nil =>
      refine ⟨[], [], rfl, by simp, ?_⟩
      rw [List.append_nil]
      rcases List.eq_nil_or_concat front with rfl | ⟨xs, x, rfl⟩
      · rfl
      · rw [List.concat_eq_append] at hfront ⊢
        have hx : x ≠ [] := by simpa using hfront
        have : (xs ++ [x] ++ tail)[xs.length]? ≠ some [] := by simpa using hx
        rw [List.length_append, List.length_singleton, beforeBlank, if_neg this]
  | append_singleton xs x ih =>
      have hget : (front ++ (xs ++ [x]) ++ tail)[(front ++ xs).length]? = some x := by
        simp
      have hlen : (front ++ (xs ++ [x])).length = (front ++ xs).length + 1 := by
        simp [Nat.add_assoc]
      rw [hlen, beforeBlank, hget]
      by_cases hx : x = []
      · subst hx
        obtain ⟨kept, blank, rfl, hblank, hlen'⟩ := ih ([] :: tail)
        refine ⟨kept, blank ++ [[]], by simp, by simpa [or_imp, forall_and] using hblank, ?_⟩
        rw [if_pos rfl, ← hlen']
        simp
      · refine ⟨xs ++ [x], [], by simp, by simp, ?_⟩
        rw [if_neg (by simpa using hx), hlen]

/-- What `ini_set_string` makes of the lines of the section: the line is inserted where the
section ends, or it takes the place of a line. -/
inductive SetLine (key line text : Str) (lit : Bool) : List Str → List Str → Prop
  | insert {kept blank tail : List Str} (hpass : ∀ s ∈ kept ++ blank, passes key s = true)
      (hread : ∀ s ∈ kept ++ blank, readable lit s = true) (hblank : ∀ s ∈ blank, s = [])
      (htail : ∀ s ∈ tail.head?, stops s = true ∧ s.head? = some iniOpenSectionChar) :
      SetLine key line text lit (kept ++ blank ++ tail) (kept ++ line :: (blank ++ tail))
  | overwrite {pre post : List Str} {s : Str} (hpass : ∀ s ∈ pre, passes key s = true)
      (hread : ∀ s ∈ pre, readable lit s = true) (hstop : stops s = true)
      (hs : s.head? ≠ some iniOpenSectionChar) :
      SetLine key line text lit (pre ++ s :: post)
        (if text = [] then pre ++ s :: post else pre ++ line :: post)
  | replace {pre post : List Str} {s : Str} {v : ℕ × Str} (hpass : ∀ s ∈ pre, passes key s = true)
      (hread : ∀ s ∈ pre, readable lit s = true) (hhold : holds key s = true)
      (hv : valueOf lit (lineBuf s) = some v) :
      SetLine key line text lit (pre ++ s :: post)
        (if v.2.take (iniMaxValueLen - 1) = text then pre ++ s :: post else pre ++ line :: post)

theorem stops_of_head {s : Str} (h : s.head? = some iniOpenSectionChar) : stops s = true := by
  obtain ⟨p, rfl⟩ : ∃ p, s = iniOpenSectionChar :: p := by
    cases s with
    | nil => cases h
    | cons c p => exact ⟨p, by simpa using h⟩
  rw [stops, Bool.or_eq_true]
  right
  rfl

theorem setLine_eq_some {list list' : List Str} {section_ : Option Str} {key line text : Str}
    {lit : Bool} (h : setLine list section_ key line text lit = some list')
    (hfront : (list.take (findSection list section_)).getLast? ≠ some []) :
    ∃ lines', SetLine key line text lit (sectionLines list section_) lines' ∧
      list' = list.take (findSection list section_) ++ lines' := by
  obtain ⟨pre, tail, hlines, hpass, htail⟩ :=
    exists_passes_append key (sectionLines list section_)
  have hlen : (list.take (findSection list section_)).length = findSection list section_ :=
    List.length_take_of_le (findSection_le list section_)
  have hlist := take_append_sectionLines list section_
  have hdrop : list.drop (findSection list section_) = pre ++ tail := hlines
  simp only [setLine, getValue] at h
  rw [hdrop, getValueLoop_append lit _ _ _ hpass] at h
  by_cases hread : pre.all (readable lit) = true
  case neg =>
    rw [if_neg hread] at h
    cases h
  rw [if_pos hread] at h
  have hread' := List.all_eq_true.mp hread
  rw [hlines] at hlist ⊢
  generalize list.take (findSection list section_) = front at hlen hlist hfront ⊢
  rw [← hlen, ← hlist, ← List.length_append] at h
  have hget : ∀ s post, tail = s :: post →
      (front ++ (pre ++ tail))[(front ++ pre).length]? = some s := by
    rintro s post rfl
    simp
  have hset : ∀ s post, tail = s :: post →
      (front ++ (pre ++ tail)).set (front ++ pre).length line = front ++ (pre ++ line :: post) := by
    rintro s post rfl
    rw [← List.append_assoc, List.set_append_right _ _ le_rfl, Nat.sub_self, List.set_cons_zero,
      List.append_assoc]
  -- the line goes in front of the blank lines, and these stand in the section
  have hinsert : (∀ s ∈ tail.head?, stops s = true ∧ s.head? = some iniOpenSectionChar) →
      ∃ lines', SetLine key line text lit (pre ++ tail) lines' ∧
        (front ++ (pre ++ tail)).take (beforeBlank (front ++ (pre ++ tail)) (front ++ pre).length) ++
          line :: (front ++ (pre ++ tail)).drop
            (beforeBlank (front ++ (pre ++ tail)) (front ++ pre).length) = front ++ lines' := by
    intro htail'
    obtain ⟨kept, blank, rfl, hblank, hlen'⟩ := beforeBlank_append front pre tail hfront
    refine ⟨_, .insert hpass hread' hblank htail', ?_⟩
    rw [← List.append_assoc front, hlen', ← List.append_assoc front, List.append_assoc _ blank,
      List.take_left, List.drop_left, List.append_assoc]
  rcases htail with rfl | ⟨s, post, rfl, hs⟩
  · rw [getValueLoop_nil, Option.map_some, Option.some_inj] at h
    obtain ⟨lines', hins, heq⟩ := hinsert (by simp)
    refine ⟨lines', hins, ?_⟩
    rw [← heq, ← h]
    simp
  · have hg := hget s post rfl
    rcases hs with hs | hs
    · rw [getValueLoop_stop lit _ _ hs, Option.map_some, Option.some_inj, hg] at h
      by_cases hh : s.head? = some iniOpenSectionChar
      · obtain ⟨lines', hins, heq⟩ := hinsert (by simpa using ⟨hs, hh⟩)
        refine ⟨lines', hins, ?_⟩
        rw [← heq, ← h]
        simp only [hh, if_true]
      · refine ⟨_, .overwrite hpass hread' hs hh, ?_⟩
        rw [← h]
        simp only [hh, if_false, eq_comm (a := text)]
        split
        · rfl
        · exact hset s post rfl
    · have hh : s.head? ≠ some iniOpenSectionChar := by
        intro hh
        have := not_stops_of_holds hs
        rw [stops_of_head hh] at this
        cases this
      rw [getValueLoop_hold lit _ _ hs, Option.map_map] at h
      obtain ⟨v, hv, h⟩ := Option.map_eq_some_iff.mp h
      refine ⟨_, .replace hpass hread' hs hv, ?_⟩
      simp only [Function.comp_apply, hg, hh, if_false] at h
      rw [← h]
      split
      · rfl
      · exact hset s post rfl

/-! ## The section that a string is set in -/

theorem sectionHeader_ne_nil (sec : Str) : sectionHeader sec ≠ [] := by
  simp [sectionHeader, safecopy]

theorem ne_nil_of_heads {sec s : Str} {cs : Bool} (h : heads sec cs s = true) : s ≠ [] := by
  rintro rfl
  cases h

theorem HeaderAt.ne_nil {sec : Str} {pre post : List Str} {hdr : Str}
    (h : HeaderAt sec pre hdr post) : hdr ≠ [] := by
  cases h with
  | exact _ _ hh => exact ne_nil_of_heads hh
  | anyCase _ _ hh => exact ne_nil_of_heads hh

theorem iniAddSection_header {sec : Str} {pre post : List Str} {hdr : Str}
    (h : HeaderAt sec pre hdr post) (style : IniStyle) :
    iniAddSection (pre ++ hdr :: post) (some sec) style = pre ++ hdr :: post := by
  simp [iniAddSection, h.findSectionIndex]

theorem iniAddSection_noHeader {sec : Str} {list : List Str} (h : NoHeader sec list) :
    iniAddSection list (some sec) {} = list ++ [sectionHeader sec] := by
  simp [iniAddSection, h.findSectionIndex]

/-- The line in front of the section's lines is not empty. -/
theorem getLast_iniAddSection (list : List Str) (section_ : Option Str) :
    ((iniAddSection list section_ {}).take
      (findSection (iniAddSection list section_ {}) section_)).getLast? ≠ some [] := by
  have hheader : ∀ {sec : Str} {pre post : List Str} {hdr : Str}, HeaderAt sec pre hdr post →
      ((pre ++ hdr :: post).take (findSection (pre ++ hdr :: post) (some sec))).getLast? ≠
        some [] := by
    intro sec pre post hdr h
    rw [h.findSection, List.append_cons, List.take_left' (by simp), List.getLast?_concat]
    simpa using h.ne_nil
  cases section_ with
  | none => simp [iniAddSection, findSection]
  | some sec =>
      rcases header_or_noHeader list sec with ⟨pre, hdr, post, rfl, h⟩ | h
      · rw [iniAddSection_header h]
        exact hheader h
      · rw [iniAddSection_noHeader h]
        rcases header_or_noHeader (list ++ [sectionHeader sec]) sec with
          ⟨pre, hdr, post, heq, h'⟩ | h'
        · rw [heq]
          exact hheader h'
        · rw [h'.findSection, List.take_length, List.getLast?_concat]
          simpa using sectionHeader_ne_nil sec

end Synchronet.Xpdev
